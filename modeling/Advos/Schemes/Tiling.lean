import Mathlib

/-! Coverings counted with multiplicity.

    A list of items covers the points of a space; `cover` counts, point by point, how many items of
    the list contain it. A list TILES a set when the count is one inside and zero outside, which is
    "nothing lost, nothing twice" as a single equation. Splitting an item, joining two, or moving an
    item from one list to another are then additions, so conservation over a run is arithmetic.

        items   |---a---|--b--|        |---c---|
        cover   1 1 1 1 1 1 1 1 0 0 0 0 1 1 1 1    -/

namespace Advos.Tiling
open Function List

variable {ι β κ α : Type*}

/-- How many items of `l` contain the point `x`. -/
def cover (cov : ι → α → Bool) (l : List ι) (x : α) : ℕ := l.countP (fun i => cov i x)

/-- The items of `l` contain every point of `P` exactly once and no other point. -/
def Tiles (cov : ι → α → Bool) (l : List ι) (P : α → Prop) : Prop :=
  ∀ x, (P x → cover cov l x = 1) ∧ (¬ P x → cover cov l x = 0)

section Cover

variable (cov : ι → α → Bool) (x : α)

@[simp] theorem cover_nil : cover cov [] x = 0 := rfl

@[simp] theorem cover_cons (i : ι) (l : List ι) :
    cover cov (i :: l) x = cover cov l x + (if cov i x then 1 else 0) := by
  simp [cover, countP_cons]

@[simp] theorem cover_append (l l' : List ι) :
    cover cov (l ++ l') x = cover cov l x + cover cov l' x := by
  simp [cover]

theorem cover_perm {l l' : List ι} (h : l.Perm l') : cover cov l x = cover cov l' x :=
  h.countP_eq _

theorem cover_pos {l : List ι} : 0 < cover cov l x ↔ ∃ i ∈ l, cov i x = true := by
  simp [cover, countP_pos_iff]

theorem cover_eq_sum (l : List ι) : cover cov l x = (l.map fun i => if cov i x then 1 else 0).sum := by
  induction l with
  | nil => rfl
  | cons i l ih => rw [cover_cons, ih, map_cons, sum_cons, Nat.add_comm]

/-- Taking one occurrence of an item away takes its points away once. -/
theorem cover_erase [BEq ι] [LawfulBEq ι] {l : List ι} {i : ι} (h : i ∈ l) :
    cover cov (l.erase i) x + (if cov i x then 1 else 0) = cover cov l x := by
  rw [← cover_cons]
  exact cover_perm cov x (perm_cons_erase h).symm

end Cover

variable {l : List ι}

theorem sum_map_pos {f : ι → ℕ} : 0 < (l.map f).sum ↔ ∃ i ∈ l, 0 < f i := by
  induction l with
  | nil => simp
  | cons i l ih =>
    rw [map_cons, sum_cons, Nat.add_pos_iff_pos_or_pos, ih, exists_mem_cons_iff]

variable {cov : ι → α → Bool}

/-- Where no point is counted twice the items are pairwise disjoint. -/
theorem pairwise_of_cover_le_one : ∀ {l : List ι}, (∀ x, cover cov l x ≤ 1) →
    l.Pairwise (fun i j => ∀ x, ¬ (cov i x = true ∧ cov j x = true))
  | [], _ => List.Pairwise.nil
  | i :: l, h => by
      refine List.Pairwise.cons ?_ (pairwise_of_cover_le_one fun x => ?_)
      · rintro j hj x ⟨hi, hj'⟩
        have hpos : 0 < cover cov l x := (cover_pos cov x).mpr ⟨j, hj, hj'⟩
        have hx := h x
        rw [cover_cons, if_pos hi] at hx
        omega
      · have hx := h x
        rw [cover_cons] at hx
        omega

theorem cover_le_one_of_pairwise (h : l.Pairwise fun i j => ∀ x, ¬ (cov i x = true ∧ cov j x = true)) (x : α) :
    cover cov l x ≤ 1 := by
  induction l with
  | nil => exact Nat.zero_le 1
  | cons i l ih =>
    obtain ⟨hi, hl⟩ := pairwise_cons.mp h
    have hrest := ih hl
    rw [cover_cons]
    split
    · next hix =>
      have hzero : ¬ 0 < cover cov l x := fun hpos => by
        obtain ⟨j, hj, hjx⟩ := (cover_pos cov x).mp hpos
        exact hi j hj x ⟨hix, hjx⟩
      omega
    · exact hrest

/-- Where no point is counted twice, items that share a point are equal. -/
theorem eq_of_cover_le_one (h : ∀ x, cover cov l x ≤ 1) {i j : ι} {x : α} (hi : i ∈ l) (hj : j ∈ l)
    (hix : cov i x = true) (hjx : cov j x = true) : i = j := by
  have : Std.Symm fun i j : ι => ∀ x, ¬ (cov i x = true ∧ cov j x = true) :=
    ⟨fun i j hij x hx => hij x ⟨hx.2, hx.1⟩⟩
  by_contra hne
  exact (pairwise_of_cover_le_one h).forall hi hj hne x ⟨hix, hjx⟩

theorem Tiles.pairwise {P : α → Prop} (h : Tiles cov l P) :
    l.Pairwise (fun i j => ∀ x, ¬ (cov i x = true ∧ cov j x = true)) := by
  refine pairwise_of_cover_le_one fun x => ?_
  by_cases hx : P x
  · rw [(h x).1 hx]
  · rw [(h x).2 hx]; omega

theorem Tiles.mem_iff {P : α → Prop} (h : Tiles cov l P) (x : α) :
    (∃ i ∈ l, cov i x = true) ↔ P x := by
  rw [← cover_pos]
  by_cases hx : P x
  · simp [(h x).1 hx, hx]
  · simp [(h x).2 hx, hx]

/-! ### Shelves: one list per key -/

/-- All items of a keyed family of lists, each with the key of its list. -/
def shelf (ks : List κ) (b : κ → List β) : List (β × κ) := ks.flatMap fun k => (b k).map (·, k)

theorem mem_shelf {ks : List κ} {b : κ → List β} {a : β} {k : κ} :
    (a, k) ∈ shelf ks b ↔ k ∈ ks ∧ a ∈ b k := by
  simp only [shelf, mem_flatMap, mem_map, Prod.mk.injEq]
  constructor
  · rintro ⟨k', hk', a', ha', rfl, rfl⟩; exact ⟨hk', ha'⟩
  · rintro ⟨hk, ha⟩; exact ⟨k, hk, a, ha, rfl, rfl⟩

theorem cover_shelf_cons (cov : β × κ → α → Bool) (k : κ) (ks : List κ) (b : κ → List β) (x : α) :
    cover cov (shelf (k :: ks) b) x = cover cov ((b k).map (·, k)) x + cover cov (shelf ks b) x := by
  simp [shelf]

theorem shelf_update_of_notMem [DecidableEq κ] {ks : List κ} {k : κ} (hk : k ∉ ks) (b : κ → List β)
    (l : List β) : shelf ks (update b k l) = shelf ks b := by
  refine flatMap_congr fun j hj => ?_
  rw [update_of_ne]
  rintro rfl; exact hk hj

/-- Replacing one list of a shelf changes the count by that list alone. -/
theorem cover_shelf_update [DecidableEq κ] (cov : β × κ → α → Bool) {k : κ} (b : κ → List β)
    (l : List β) (x : α) : ∀ {ks : List κ}, ks.Nodup → k ∈ ks →
    cover cov (shelf ks (update b k l)) x + cover cov ((b k).map (·, k)) x =
      cover cov (shelf ks b) x + cover cov (l.map (·, k)) x
  | [], _, hk => by simp at hk
  | j :: ks, hnd, hk => by
      rw [cover_shelf_cons, cover_shelf_cons]
      obtain ⟨hj, hnd'⟩ := nodup_cons.mp hnd
      by_cases hkj : k = j
      · subst hkj
        rw [shelf_update_of_notMem hj, update_self]
        omega
      · have hk' : k ∈ ks := (mem_cons.mp hk).resolve_left hkj
        have ih := cover_shelf_update cov b l x hnd' hk'
        rw [update_of_ne (Ne.symm hkj)]
        omega

end Advos.Tiling
