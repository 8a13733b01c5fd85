import Advos.Pgt.Large

/-! The pages of a page table.

    Of the pages given to `pgt_init` each is the PML4, or on the free list once, or behind one entry
    of the tables. This is read off the memory as the hardware does it, from `cr3` down. -/

namespace Advos.Pgt
open Linked

variable {b : Buffer} {t : PageTable} {used : Used} {fr : List ℕ} {p : List ℕ} {a i : ℕ}

/-- An entry of a PDPT or a PD may be a leaf instead of a pointer to a table. -/
def isLeaf (p : List ℕ) (e : ℕ) : Bool := p.length ≠ 0 && pageBit e

/-- The physical page of the table at the end of a path of indices, last index first, through present
    entries that are not leaves. -/
def tableAt (t : PageTable) : List ℕ → Option ℕ
  | [] => some (frameOf t.cr3 12)
  | i :: p =>
    match tableAt t p with
    | none => none
    | some pa =>
      let e := readEntry t pa i
      if i < 512 ∧ p.length < 3 ∧ present e = true ∧ isLeaf p e = false then some (frameOf e 12) else none

/-- `l` is the free list. -/
def IsFree (b : Buffer) (t : PageTable) (l : List ℕ) : Prop :=
  Chain (fun x => ptr (t.mem x)) (ptr t.free) (l.map b.page)

/-- Each page of the buffer is the PML4, free once, or behind one entry; and no PT is empty. -/
structure Conserved (b : Buffer) (t : PageTable) : Prop where
  pages : ∃ l, IsFree b t l ∧ (∀ a ∈ l, a < b.nr) ∧ ∀ a < b.nr,
    tableAt t [] = some (b.physPage a) ∧ l.count a = 0 ∧ (∀ i p, tableAt t (i :: p) ≠ some (b.physPage a)) ∨
    tableAt t [] ≠ some (b.physPage a) ∧ l.count a = 1 ∧ (∀ i p, tableAt t (i :: p) ≠ some (b.physPage a)) ∨
    tableAt t [] ≠ some (b.physPage a) ∧ l.count a = 0 ∧
      ∃! e : ℕ × List ℕ, tableAt t (e.1 :: e.2) = some (b.physPage a)
  full : ∀ p pa, tableAt t p = some pa → p.length = 3 → ∃ j < 512, present (readEntry t pa j) = true

theorem Buffer.physPage_inj {c : ℕ} (h : b.physPage a = b.physPage c) : a = c := by
  simp only [Buffer.physPage] at h
  omega

namespace Tree

variable (T : Tree b t used fr)
include T

theorem tableAt_eq (p : List ℕ) : tableAt t p = (used p).map b.physPage := by
  induction p with
  | nil =>
    rw [tableAt, T.frameOf_cr3, T.root]
    rfl
  | cons i p ih =>
    rw [tableAt, ih]
    cases ha : used p with
    | none =>
      rw [T.used_none ha]
      rfl
    | some a =>
      simp only [Option.map_some, T.readEntry_eq (T.lt ha)]
      by_cases hi : i < 512
      · cases T.slots ha hi with
        | empty hw hu =>
          rw [hw, hu, if_neg fun h => absurd h.2.2.1 (by decide)]
          rfl
        | table c hw hu hp =>
          have hleaf : isLeaf p (b.tableEntry c) = false := by
            rw [isLeaf, Buffer.tableEntry_page, Bool.and_false]
          rw [hw, hu, if_pos ⟨hi, hp, Buffer.tableEntry_present, hleaf⟩, Buffer.frameOf_tableEntry (T.lt hu)]
          rfl
        | leaf hw hu hp =>
          rw [hu, if_neg]
          · rfl
          · rintro ⟨-, hp', -, hleaf⟩
            rcases hp with hp | ⟨hp, hpage⟩
            · omega
            · rw [isLeaf, hpage, hp] at hleaf
              cases hleaf
      · have hu : used (i :: p) = none := by
          cases hu : used (i :: p) with
          | none => rfl
          | some c => exact absurd (T.up hu).1 hi
        rw [hu, if_neg fun h => hi h.1]
        rfl

theorem tableAt_iff : tableAt t p = some (b.physPage a) ↔ used p = some a := by
  rw [T.tableAt_eq, Option.map_eq_some_iff]
  constructor
  · rintro ⟨c, hc, heq⟩
    rw [hc, Buffer.physPage_inj heq]
  · exact fun h => ⟨a, h, rfl⟩

theorem count_free (a : ℕ) : fr.count a ≤ 1 :=
  List.nodup_iff_count_le_one.mp (List.Nodup.of_map _ T.chain.nodup) a

theorem page_cases (ha : a < b.nr) :
    tableAt t [] = some (b.physPage a) ∧ fr.count a = 0 ∧ (∀ i p, tableAt t (i :: p) ≠ some (b.physPage a)) ∨
    tableAt t [] ≠ some (b.physPage a) ∧ fr.count a = 1 ∧ (∀ i p, tableAt t (i :: p) ≠ some (b.physPage a)) ∨
    tableAt t [] ≠ some (b.physPage a) ∧ fr.count a = 0 ∧
      ∃! e : ℕ × List ℕ, tableAt t (e.1 :: e.2) = some (b.physPage a) := by
  simp only [ne_eq, T.tableAt_iff]
  rcases T.all ha with hfree | ⟨q, hq⟩
  · have hnone := (T.free_ok hfree).2.2
    have hone := T.count_free a
    have hpos := List.count_pos_iff.mpr hfree
    exact .inr (.inl ⟨hnone [], by omega, fun i p => hnone (i :: p)⟩)
  · have hzero : fr.count a = 0 := List.count_eq_zero.mpr fun h => (T.free_ok h).2.2 q hq
    cases q with
    | nil =>
      refine .inl ⟨hq, hzero, fun i p h => ?_⟩
      cases T.inj hq h
    | cons i p =>
      refine .inr (.inr ⟨fun h => ?_, hzero, ⟨i, p⟩, hq, ?_⟩)
      · cases T.inj hq h
      · rintro ⟨j, q⟩ h
        obtain ⟨rfl, rfl⟩ := List.cons.inj (T.inj h hq)
        rfl

end Tree

/-- In every run each page of the buffer is in one place, and each last table has an entry. -/
theorem table_pages_conserved (h : Reach b t) : Conserved b t := by
  obtain ⟨used, fr, T, K⟩ := h.shape
  refine ⟨⟨fr, T.chain, fun a ha => T.free_lt ha, fun a ha => T.page_cases ha⟩, fun p pa hpa hp => ?_⟩
  rw [T.tableAt_eq, Option.map_eq_some_iff] at hpa
  obtain ⟨a, ha, rfl⟩ := hpa
  obtain ⟨j, hj, hpres⟩ := K.full ha hp
  exact ⟨j, hj, by rwa [T.readEntry_eq (T.lt ha)]⟩

theorem table_pages_conserved_one_large : Conserved fourPages oneLarge := table_pages_conserved oneLarge_reach.reach

end Advos.Pgt
