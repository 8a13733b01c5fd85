import Mathlib

/-! Unbalanced binary trees, searched by a comparison.

    `add` and `delete` go down by the sign of a comparison that they know nothing about:

        compare > 0   right              deleting x hangs its right subtree
        otherwise     left               under the last node of its left one

    Whatever the comparison answers, the nodes from left to right are the old ones with one more, or
    one less. Where it agrees with a key on the nodes it is asked about, the tree stays ordered by the
    key and a node is found again. -/

namespace Advos.SearchTree
open List

inductive BTree (α : Type*)
  | nil
  | node (left : BTree α) (x : α) (right : BTree α)
deriving DecidableEq, Repr

namespace BTree

variable {α β : Type*}

/-- The nodes from left to right. -/
def inorder : BTree α → List α
  | nil => []
  | node l x r => inorder l ++ x :: inorder r

@[simp] theorem inorder_nil : (nil : BTree α).inorder = [] := rfl

@[simp] theorem inorder_node (l r : BTree α) (x : α) :
    (node l x r).inorder = l.inorder ++ x :: r.inorder := rfl

variable {l r : BTree α}

theorem mem_node {x y : α} :
    y ∈ (node l x r).inorder ↔ y ∈ l.inorder ∨ y = x ∨ y ∈ r.inorder := by
  rw [inorder_node, mem_append, mem_cons]

theorem mem_root {x : α} : x ∈ (node l x r).inorder := mem_node.mpr (.inr (.inl rfl))

theorem mem_left {x y : α} (h : y ∈ l.inorder) : y ∈ (node l x r).inorder := mem_node.mpr (.inl h)

theorem mem_right {x y : α} (h : y ∈ r.inorder) : y ∈ (node l x r).inorder :=
  mem_node.mpr (.inr (.inr h))

variable {t : BTree α}

theorem inorder_eq_nil : t.inorder = [] ↔ t = nil := by
  cases t <;> simp

theorem inorder_eq_singleton {x : α} : t.inorder = [x] ↔ t = node nil x nil := by
  cases t with
  | nil => simp
  | node l y r => simp [append_eq_singleton_iff, inorder_eq_nil, and_comm, and_left_comm]

/-- A new leaf `n`; refused next to an equal node unless `dup` allows it. -/
def add (cmp : α → ℤ) (dup : Bool) (n : α) : BTree α → Option (BTree α)
  | nil => some (node nil n nil)
  | node l y r =>
    if !dup ∧ cmp y = 0 then none
    else if cmp y > 0 then (add cmp dup n r).map (node l y)
    else (add cmp dup n l).map fun l' => node l' y r

/-- The second tree under the last node of the first. -/
def hang : BTree α → BTree α → BTree α
  | nil, t => t
  | node l x r, t => node l x (hang r t)

def delete [DecidableEq α] (cmp : α → ℤ) (n : α) : BTree α → Option (BTree α)
  | nil => none
  | node l y r =>
    if y = n then some (hang l r)
    else if cmp y > 0 then (delete cmp n r).map (node l y)
    else (delete cmp n l).map fun l' => node l' y r

/-- The nodes that `cmp` is asked about on the way to `n`, or to the place for it. -/
def path [DecidableEq α] (cmp : α → ℤ) (n : α) : BTree α → List α
  | nil => []
  | node l y r => if y = n then [] else y :: (if cmp y > 0 then path cmp n r else path cmp n l)

/-- A search down the tree whose condition carries a state along; 0 ends it. -/
def search {σ : Type*} (cond : α → σ → ℤ × σ) : BTree α → σ → Option α × σ
  | nil, s => (none, s)
  | node l y r, s =>
    if (cond y s).1 = 0 then (some y, (cond y s).2)
    else if (cond y s).1 > 0 then search cond r (cond y s).2
    else search cond l (cond y s).2

section Congr
variable {cmp cmp' : α → ℤ} {t : BTree α}

theorem add_congr {dup : Bool} {n : α} (h : ∀ y ∈ t.inorder, cmp y = cmp' y) :
    add cmp dup n t = add cmp' dup n t := by
  induction t with
  | nil => rfl
  | node l y r ihl ihr =>
    rw [add, add, h y mem_root, ihl fun z hz => h z (mem_left hz),
      ihr fun z hz => h z (mem_right hz)]

theorem delete_congr [DecidableEq α] {n : α} (h : ∀ y ∈ t.inorder, cmp y = cmp' y) :
    delete cmp n t = delete cmp' n t := by
  induction t with
  | nil => rfl
  | node l y r ihl ihr =>
    rw [delete, delete, h y mem_root, ihl fun z hz => h z (mem_left hz),
      ihr fun z hz => h z (mem_right hz)]

theorem search_congr {σ : Type*} {cond cond' : α → σ → ℤ × σ} (h : ∀ y ∈ t.inorder, cond y = cond' y) (s : σ) :
    search cond t s = search cond' t s := by
  induction t generalizing s with
  | nil => rfl
  | node l y r ihl ihr =>
    rw [search, search, h y mem_root, ihl fun z hz => h z (mem_left hz),
      ihr fun z hz => h z (mem_right hz)]

end Congr

variable {cmp : α → ℤ}

/-- What holds on the path holds at the root, and on the rest of the path. -/
theorem forall_path [DecidableEq α] {n y : α} {Q : α → Prop} (h : ∀ z ∈ path cmp n (node l y r), Q z)
    (hyn : y ≠ n) :
    Q y ∧ (cmp y > 0 → ∀ z ∈ path cmp n r, Q z) ∧ (¬cmp y > 0 → ∀ z ∈ path cmp n l, Q z) := by
  rw [path, if_neg hyn, forall_mem_cons] at h
  refine ⟨h.1, fun hpos => ?_, fun hneg => ?_⟩
  · rw [if_pos hpos] at h
    exact h.2
  · rw [if_neg hneg] at h
    exact h.2

theorem mem_of_mem_path [DecidableEq α] {n y : α} (h : y ∈ path cmp n t) :
    y ∈ t.inorder := by
  induction t with
  | nil => cases h
  | node l x r ihl ihr =>
    rw [path] at h
    split at h
    · cases h
    rcases mem_cons.mp h with rfl | h
    · exact mem_root
    split at h
    · exact mem_node.mpr (.inr (.inr (ihr h)))
    · exact mem_node.mpr (.inl (ihl h))

/-! ### The sequence of nodes -/

theorem inorder_hang (l r : BTree α) : (hang l r).inorder = l.inorder ++ r.inorder := by
  induction l with
  | nil => rfl
  | node l x m _ ih => rw [hang, inorder_node, ih, inorder_node, append_assoc, cons_append]

variable {t t' : BTree α} {n : α} {dup : Bool}

theorem inorder_add (h : add cmp dup n t = some t') :
    ∃ A B, t.inorder = A ++ B ∧ t'.inorder = A ++ n :: B := by
  induction t generalizing t' with
  | nil =>
    cases h
    exact ⟨[], [], rfl, rfl⟩
  | node l y r ihl ihr =>
    rw [add] at h
    split at h
    · cases h
    split at h
    · obtain ⟨r', hr, rfl⟩ := Option.map_eq_some_iff.mp h
      obtain ⟨A, B, h1, h2⟩ := ihr hr
      exact ⟨l.inorder ++ y :: A, B, by simp [h1], by simp [h2]⟩
    · obtain ⟨l', hl, rfl⟩ := Option.map_eq_some_iff.mp h
      obtain ⟨A, B, h1, h2⟩ := ihl hl
      exact ⟨A, B ++ y :: r.inorder, by simp [h1], by simp [h2]⟩

theorem perm_add (h : add cmp dup n t = some t') :
    t'.inorder.Perm (n :: t.inorder) := by
  obtain ⟨A, B, h1, h2⟩ := inorder_add h
  rw [h1, h2]
  exact perm_middle

theorem inorder_delete [DecidableEq α] (h : delete cmp n t = some t') :
    ∃ A B, t.inorder = A ++ n :: B ∧ t'.inorder = A ++ B := by
  induction t generalizing t' with
  | nil => cases h
  | node l y r ihl ihr =>
    rw [delete] at h
    split at h
    · next hy =>
      cases h
      exact ⟨l.inorder, r.inorder, by rw [← hy]; rfl, inorder_hang l r⟩
    split at h
    · obtain ⟨r', hr, rfl⟩ := Option.map_eq_some_iff.mp h
      obtain ⟨A, B, h1, h2⟩ := ihr hr
      exact ⟨l.inorder ++ y :: A, B, by simp [h1], by simp [h2]⟩
    · obtain ⟨l', hl, rfl⟩ := Option.map_eq_some_iff.mp h
      obtain ⟨A, B, h1, h2⟩ := ihl hl
      exact ⟨A, B ++ y :: r.inorder, by simp [h1], by simp [h2]⟩

theorem perm_delete [DecidableEq α] (h : delete cmp n t = some t') :
    t.inorder.Perm (n :: t'.inorder) := by
  obtain ⟨A, B, h1, h2⟩ := inorder_delete h
  rw [h1, h2]
  exact perm_middle

/-! ### Order -/

section Order
variable [LinearOrder β] {key : α → β}

/-- Nothing to the left of a node is above it, everything to the right is. -/
def Ordered (key : α → β) : BTree α → Prop
  | nil => True
  | node l x r => Ordered key l ∧ Ordered key r ∧ (∀ y ∈ l.inorder, key y ≤ key x) ∧
      ∀ y ∈ r.inorder, key x < key y

theorem Ordered.congr {key' : α → β} {t : BTree α} (h : Ordered key t)
    (heq : ∀ y ∈ t.inorder, key' y = key y) : Ordered key' t := by
  induction t with
  | nil => trivial
  | node l x r ihl ihr =>
    obtain ⟨hl, hr, hlx, hxr⟩ := h
    have hx := heq x mem_root
    have hl' : ∀ y ∈ l.inorder, key' y = key y := fun y hy => heq y (mem_left hy)
    have hr' : ∀ y ∈ r.inorder, key' y = key y := fun y hy => heq y (mem_right hy)
    refine ⟨ihl hl hl', ihr hr hr', fun y hy => ?_, fun y hy => ?_⟩
    · rw [hx, hl' y hy]
      exact hlx y hy
    · rw [hx, hr' y hy]
      exact hxr y hy

/-- `cmp` goes right exactly at the nodes below `n`. -/
def Agrees (cmp : α → ℤ) (key : α → β) (n : α) (ys : List α) : Prop :=
  ∀ y ∈ ys, cmp y > 0 ↔ key y < key n

theorem Ordered.hang {l r : BTree α} (hl : Ordered key l) (hr : Ordered key r)
    (h : ∀ x ∈ l.inorder, ∀ y ∈ r.inorder, key x < key y) : Ordered key (hang l r) := by
  induction l with
  | nil => exact hr
  | node a x b _ ih =>
    obtain ⟨ha, hb, hax, hxb⟩ := hl
    refine ⟨ha, ih hb fun z hz => h z (mem_right hz), hax, fun y hy => ?_⟩
    rw [inorder_hang, mem_append] at hy
    rcases hy with hy | hy
    · exact hxb y hy
    · exact h x mem_root y hy

variable {cmp : α → ℤ}

theorem Ordered.add [DecidableEq α] {dup : Bool} {n : α} {t t' : BTree α} (ht : Ordered key t)
    (hn : n ∉ t.inorder) (hag : Agrees cmp key n (path cmp n t)) (h : add cmp dup n t = some t') :
    Ordered key t' := by
  induction t generalizing t' with
  | nil =>
    cases h
    exact ⟨trivial, trivial, by simp, by simp⟩
  | node l y r ihl ihr =>
    obtain ⟨hl, hr, hly, hyr⟩ := ht
    rw [mem_node, not_or, not_or] at hn
    obtain ⟨hnl, hny, hnr⟩ := hn
    obtain ⟨hy, hagr, hagl⟩ := forall_path hag (Ne.symm hny)
    rw [BTree.add] at h
    split at h
    · cases h
    split at h
    · next hpos =>
      obtain ⟨r', hr', rfl⟩ := Option.map_eq_some_iff.mp h
      refine ⟨hl, ihr hr hnr (hagr hpos) hr', hly, fun z hz => ?_⟩
      rcases mem_cons.mp ((perm_add hr').mem_iff.mp hz) with rfl | hz
      · exact hy.mp hpos
      · exact hyr z hz
    · next hneg =>
      obtain ⟨l', hl', rfl⟩ := Option.map_eq_some_iff.mp h
      refine ⟨ihl hl hnl (hagl hneg) hl', hr, fun z hz => ?_, hyr⟩
      rcases mem_cons.mp ((perm_add hl').mem_iff.mp hz) with rfl | hz
      · exact not_lt.mp fun hlt => hneg (hy.mpr hlt)
      · exact hly z hz

theorem Ordered.delete [DecidableEq α] {n : α} {t t' : BTree α} (ht : Ordered key t)
    (h : delete cmp n t = some t') : Ordered key t' := by
  induction t generalizing t' with
  | nil => cases h
  | node l y r ihl ihr =>
    obtain ⟨hl, hr, hly, hyr⟩ := ht
    rw [BTree.delete] at h
    split at h
    · cases h
      exact hl.hang hr fun x hx z hz => lt_of_le_of_lt (hly x hx) (hyr z hz)
    split at h
    · obtain ⟨r', hr', rfl⟩ := Option.map_eq_some_iff.mp h
      exact ⟨hl, ihr hr hr', hly, fun z hz =>
        hyr z ((perm_delete hr').mem_iff.mpr (mem_cons_of_mem _ hz))⟩
    · obtain ⟨l', hl', rfl⟩ := Option.map_eq_some_iff.mp h
      exact ⟨ihl hl hl', hr, fun z hz =>
        hly z ((perm_delete hl').mem_iff.mpr (mem_cons_of_mem _ hz)), hyr⟩

theorem Ordered.exists_delete [DecidableEq α] {n : α} {t : BTree α} (ht : Ordered key t) (hn : n ∈ t.inorder)
    (hag : Agrees cmp key n (path cmp n t)) :
    ∃ t', BTree.delete cmp n t = some t' := by
  induction t with
  | nil => cases hn
  | node l y r ihl ihr =>
    obtain ⟨hl, hr, hly, hyr⟩ := ht
    rw [BTree.delete]
    rcases eq_or_ne y n with rfl | hyn
    · exact ⟨_, if_pos rfl⟩
    obtain ⟨hy, hagr, hagl⟩ := forall_path hag hyn
    rw [if_neg hyn]
    rcases mem_node.mp hn with hn | rfl | hn
    · have hneg : ¬cmp y > 0 := fun hpos => absurd (hy.mp hpos) (not_lt.mpr (hly n hn))
      obtain ⟨l', hl'⟩ := ihl hl hn (hagl hneg)
      exact ⟨_, by rw [if_neg hneg, hl']; rfl⟩
    · exact absurd rfl hyn
    · have hpos : cmp y > 0 := hy.mpr (hyr n hn)
      obtain ⟨r', hr'⟩ := ihr hr hn (hagr hpos)
      exact ⟨_, by rw [if_pos hpos, hr']; rfl⟩

end Order

/-- Without equal nodes on the way, or with `dup`, a node is never refused. -/
theorem exists_add [DecidableEq α] (hn : n ∉ t.inorder) (h : dup = true ∨ ∀ y ∈ path cmp n t, cmp y ≠ 0) :
    ∃ t', add cmp dup n t = some t' := by
  induction t with
  | nil => exact ⟨_, rfl⟩
  | node l y r ihl ihr =>
    rw [mem_node, not_or, not_or] at hn
    obtain ⟨hnl, hny, hnr⟩ := hn
    have hpath := h.imp_right fun h => forall_path h (Ne.symm hny)
    have h0 : ¬((!dup) = true ∧ cmp y = 0) := by
      rintro ⟨hd, hc⟩
      rcases hpath with h | h
      · rw [h] at hd
        cases hd
      · exact h.1 hc
    rw [add, if_neg h0]
    split
    · next hpos =>
      obtain ⟨r', hr'⟩ := ihr hnr (hpath.imp_right fun h => h.2.1 hpos)
      exact ⟨_, by rw [hr']; rfl⟩
    · next hneg =>
      obtain ⟨l', hl'⟩ := ihl hnl (hpath.imp_right fun h => h.2.2 hneg)
      exact ⟨_, by rw [hl']; rfl⟩

/-! ### Searching -/

section Search
variable [LinearOrder β] {key : α → β} {t : BTree α}

theorem search_sound {cond : α → ℤ} {x : α} (h : (search (fun y (s : Unit) => (cond y, s)) t ()).1 = some x) :
    x ∈ t.inorder ∧ cond x = 0 := by
  induction t with
  | nil => cases h
  | node l y r ihl ihr =>
    rw [search] at h
    simp only at h
    split at h
    · next h0 =>
      cases h
      exact ⟨mem_root, h0⟩
    split at h
    · exact (ihr h).imp (fun hx => mem_right hx) id
    · exact (ihl h).imp (fun hx => mem_left hx) id

/-- A search whose condition points towards `m` finds a node where there is one. -/
theorem Ordered.search_complete (cond : α → ℤ) {m : α} (ht : Ordered key t) (hm : m ∈ t.inorder)
    (hdir : ∀ y ∈ t.inorder, cond y ≠ 0 → key y ≠ key m ∧ (cond y > 0 ↔ key y < key m)) :
    ∃ x, (search (fun y (s : Unit) => (cond y, s)) t ()).1 = some x := by
  induction t with
  | nil => cases hm
  | node l y r ihl ihr =>
    obtain ⟨hl, hr, hly, hyr⟩ := ht
    have hy := hdir y mem_root
    rw [search]
    simp only
    split
    · exact ⟨y, rfl⟩
    · next h0 =>
      obtain ⟨hne, hgt⟩ := hy h0
      rcases mem_node.mp hm with hm | rfl | hm
      · rw [if_neg fun hpos => absurd (hgt.mp hpos) (not_lt.mpr (hly m hm))]
        exact ihl hl hm fun z hz => hdir z (mem_left hz)
      · exact absurd rfl hne
      · rw [if_pos (hgt.mpr (hyr m hm))]
        exact ihr hr hm fun z hz => hdir z (mem_right hz)

/-- The search for the least node that is not below `k`: it keeps the last such node it saw. -/
def fit (key : α → β) (k : β) (y : α) (s : Option α) : ℤ × Option α :=
  if key y < k then (1, s) else (-1, some y)

/-- `x` is a least node of `ys` that is not below `k`. -/
def Fits (key : α → β) (k : β) (ys : List α) (x : α) : Prop :=
  x ∈ ys ∧ k ≤ key x ∧ ∀ y ∈ ys, k ≤ key y → key x ≤ key y

/-- In any order of the nodes, the node kept is one that is not below `k`. -/
theorem search_fit_sound {k : β} {s : Option α} {x : α} (h : (search (fit key k) t s).2 = some x) :
    s = some x ∨ x ∈ t.inorder ∧ k ≤ key x := by
  induction t generalizing s with
  | nil => exact .inl h
  | node l y r ihl ihr =>
    rcases lt_or_ge (key y) k with hk | hk
    · have hstep : search (fit key k) (node l y r) s = search (fit key k) r s := by
        simp [search, fit, hk]
      rw [hstep] at h
      exact (ihr h).imp id (And.imp (fun hx => mem_right hx) id)
    · have hstep : search (fit key k) (node l y r) s = search (fit key k) l (some y) := by
        simp [search, fit, not_lt.mpr hk]
      rw [hstep] at h
      rcases ihl h with hy | hx
      · cases hy
        exact .inr ⟨mem_root, hk⟩
      · exact .inr (hx.imp (fun hx => mem_left hx) id)

/-- The last node kept is a least one; the state stays when there is none. -/
theorem Ordered.search_fit {k : β} (ht : Ordered key t) (s : Option α) :
    (∃ x, (search (fit key k) t s).2 = some x ∧ Fits key k t.inorder x) ∨
      (search (fit key k) t s).2 = s ∧ ∀ y ∈ t.inorder, key y < k := by
  induction t generalizing s with
  | nil => exact .inr ⟨rfl, by simp⟩
  | node l y r ihl ihr =>
    obtain ⟨hl, hr, hly, hyr⟩ := ht
    by_cases hk : key y < k
    · have hstep : search (fit key k) (node l y r) s = search (fit key k) r s := by
        simp [search, fit, hk]
      rw [hstep]
      have hlow : ∀ z ∈ l.inorder, key z < k := fun z hz => lt_of_le_of_lt (hly z hz) hk
      rcases ihr hr s with ⟨x, hx, hmem, hkx, hmin⟩ | ⟨hs, hall⟩
      · refine .inl ⟨x, hx, mem_right hmem, hkx, fun z hz hkz => ?_⟩
        rcases mem_node.mp hz with hz | rfl | hz
        · exact absurd (hlow z hz) (not_lt.mpr hkz)
        · exact absurd hk (not_lt.mpr hkz)
        · exact hmin z hz hkz
      · refine .inr ⟨hs, fun z hz => ?_⟩
        rcases mem_node.mp hz with hz | rfl | hz
        · exact hlow z hz
        · exact hk
        · exact hall z hz
    · have hstep : search (fit key k) (node l y r) s = search (fit key k) l (some y) := by
        simp [search, fit, hk]
      rw [hstep]
      have hky : k ≤ key y := not_lt.mp hk
      rcases ihl hl (some y) with ⟨x, hx, hmem, hkx, hmin⟩ | ⟨hs, hall⟩
      · refine .inl ⟨x, hx, mem_left hmem, hkx, fun z hz hkz => ?_⟩
        rcases mem_node.mp hz with hz | rfl | hz
        · exact hmin z hz hkz
        · exact hly x hmem
        · exact (hly x hmem).trans (hyr z hz).le
      · refine .inl ⟨y, hs, mem_root, hky, fun z hz hkz => ?_⟩
        rcases mem_node.mp hz with hz | rfl | hz
        · exact absurd (hall z hz) (not_lt.mpr hkz)
        · exact le_rfl
        · exact (hyr z hz).le

end Search

end BTree

end Advos.SearchTree
