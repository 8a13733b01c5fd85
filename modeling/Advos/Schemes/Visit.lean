import Advos.Schemes.SearchTree

/-! Walks over a binary tree whose visit to a node may fail.

    A node is visited before its subtrees, and the left subtree before the right one. The walk here
    ends with a failure of the left subtree and drops one of the right subtree:

            x          x, y, z   the left spine, visited first; a failure ends the walk
           / \
          y   w        u, v, w   the others; a failure is dropped
         / \
        z   v
         \
          u

    So it fails exactly when a visit on the left spine fails. -/

namespace Advos.Visit
open SearchTree List

variable {α τ ε : Type*}

/-- The nodes in the order of the visits. -/
def preorder : BTree α → List α
  | .nil => []
  | .node l x r => x :: preorder l ++ preorder r

/-- The root, its left child, the left child of that, and so on. -/
def spine : BTree α → List α
  | .nil => []
  | .node l x _ => x :: spine l

variable (visit : α → τ → Except ε (Bool × τ))

/-- Visits one after the other, up to the first that fails. -/
def visitAll : List α → τ → Except ε (Bool × τ)
  | [], s => .ok (true, s)
  | x :: xs, s =>
    match visit x s with
    | .error e => .error e
    | .ok (false, s) => .ok (false, s)
    | .ok (true, s) => visitAll xs s

/-- The walk that drops what the right subtree returns. -/
def walk : BTree α → τ → Except ε (Bool × τ)
  | .nil, s => .ok (true, s)
  | .node l x r, s =>
    match visit x s with
    | .error e => .error e
    | .ok (false, s) => .ok (false, s)
    | .ok (true, s) =>
      match walk l s with
      | .error e => .error e
      | .ok (false, s) => .ok (false, s)
      | .ok (true, s) => (walk r s).map fun a => (true, a.2)

/-- The walk over the tree, from `s` on, visits `y` and gets `ok`. -/
inductive Tries : BTree α → τ → α → Bool → Prop
  | here {l r : BTree α} {x : α} {s s' : τ} {ok : Bool} : visit x s = .ok (ok, s') → Tries (.node l x r) s x ok
  | left {l r : BTree α} {x y : α} {s s₁ : τ} {ok : Bool} : visit x s = .ok (true, s₁) → Tries l s₁ y ok →
      Tries (.node l x r) s y ok
  | right {l r : BTree α} {x y : α} {s s₁ s₂ : τ} {ok : Bool} : visit x s = .ok (true, s₁) →
      walk visit l s₁ = .ok (true, s₂) → Tries r s₂ y ok → Tries (.node l x r) s y ok

variable {visit} {t : BTree α} {s s' : τ}

theorem visitAll_append {xs ys : List α} : visitAll visit (xs ++ ys) s =
    match visitAll visit xs s with
    | .error e => .error e
    | .ok (false, s) => .ok (false, s)
    | .ok (true, s) => visitAll visit ys s := by
  induction xs generalizing s with
  | nil => rfl
  | cons x xs ih =>
    rw [cons_append, visitAll, visitAll]
    split
    · rfl
    · rfl
    · exact ih

/-- SPINE: the walk fails when a visit on the left spine fails, and only then. -/
theorem walk_eq_false : walk visit t s = .ok (false, s') ↔ visitAll visit (spine t) s = .ok (false, s') := by
  induction t generalizing s with
  | nil => simp [walk, visitAll, spine]
  | node l x r ihl ihr =>
    rw [walk, spine, visitAll]
    split
    · rfl
    · rfl
    · next s₁ _ =>
      rw [← ihl]
      match hl : walk visit l s₁ with
      | .error e => rfl
      | .ok (false, s₂) => rfl
      | .ok (true, s₂) =>
        dsimp only
        cases walk visit r s₂ <;> simp [Except.map]

theorem tries_node {l r : BTree α} {x y : α} {s₁ : τ} {ok : Bool} (hx : visit x s = .ok (true, s₁)) :
    Tries visit (.node l x r) s y ok ↔ (y = x ∧ ok = true) ∨ Tries visit l s₁ y ok ∨
      ∃ s₂, walk visit l s₁ = .ok (true, s₂) ∧ Tries visit r s₂ y ok := by
  constructor
  · intro h
    cases h with
    | here hx' => exact .inl ⟨rfl, (Prod.mk.inj (Except.ok.inj (hx'.symm.trans hx))).1⟩
    | left hx' hy =>
      obtain ⟨-, rfl⟩ := Prod.mk.inj (Except.ok.inj (hx'.symm.trans hx))
      exact .inr (.inl hy)
    | right hx' hl hy =>
      obtain ⟨-, rfl⟩ := Prod.mk.inj (Except.ok.inj (hx'.symm.trans hx))
      exact .inr (.inr ⟨_, hl, hy⟩)
  · rintro (⟨rfl, rfl⟩ | hy | ⟨s₂, hl, hy⟩)
    · exact .here hx
    · exact .left hx hy
    · exact .right hx hl hy

/-- ALL: where every visit works, the walk visits every node. -/
theorem walk_of_visitAll (h : visitAll visit (preorder t) s = .ok (true, s')) : walk visit t s = .ok (true, s') ∧
    (∀ y ∈ t.inorder, Tries visit t s y true) ∧ ∀ y ok, Tries visit t s y ok → ok = true := by
  induction t generalizing s s' with
  | nil => exact ⟨h, by simp, fun y ok hy => nomatch hy⟩
  | node l x r ihl ihr =>
    rw [preorder, cons_append, visitAll] at h
    split at h
    · cases h
    · cases h
    next s₁ hx =>
    rw [visitAll_append] at h
    split at h
    · cases h
    · cases h
    next s₂ hl =>
    obtain ⟨hwl, hal, hol⟩ := ihl hl
    obtain ⟨hwr, har, hor⟩ := ihr h
    refine ⟨by simp [walk, hx, hwl, hwr, Except.map], fun y hy => ?_, fun y ok hy => ?_⟩
    · rcases BTree.mem_node.mp hy with hy | rfl | hy
      · exact .left hx (hal y hy)
      · exact .here hx
      · exact .right hx hwl (har y hy)
    · rcases (tries_node hx).mp hy with ⟨-, hok⟩ | hy | ⟨s3, hl', hy⟩
      · exact hok
      · exact hol y ok hy
      · obtain ⟨-, rfl⟩ := Prod.mk.inj (Except.ok.inj (hwl.symm.trans hl'))
        exact hor y ok hy

/-- STOP: where the visits stop and none has failed before, the walk stops, and none has failed. -/
theorem walk_of_stop {e : ε} (h : visitAll visit (preorder t) s = .error e) :
    walk visit t s = .error e ∧ ∀ y ok, Tries visit t s y ok → ok = true := by
  induction t generalizing s with
  | nil => cases h
  | node l x r ihl ihr =>
    rw [preorder, cons_append, visitAll] at h
    split at h
    · next hx =>
      refine ⟨by rw [walk, hx]; exact h, fun y ok hy => ?_⟩
      cases hy with
      | here hx' => cases hx.symm.trans hx'
      | left hx' _ => cases hx.symm.trans hx'
      | right hx' _ _ => cases hx.symm.trans hx'
    · cases h
    next s₁ hx =>
    rw [visitAll_append] at h
    split at h
    · next hl =>
      obtain ⟨hwl, hol⟩ := ihl (hl.trans h)
      refine ⟨by simp [walk, hx, hwl], fun y ok hy => ?_⟩
      rcases (tries_node hx).mp hy with ⟨-, hok⟩ | hy | ⟨s₂, hl', -⟩
      · exact hok
      · exact hol y ok hy
      · cases hwl.symm.trans hl'
    · cases h
    · next s₂ hl =>
      obtain ⟨hwl, -, hol⟩ := walk_of_visitAll hl
      obtain ⟨hwr, hor⟩ := ihr h
      refine ⟨by simp [walk, hx, hwl, hwr, Except.map], fun y ok hy => ?_⟩
      rcases (tries_node hx).mp hy with ⟨-, hok⟩ | hy | ⟨s3, hl', hy⟩
      · exact hok
      · exact hol y ok hy
      · obtain ⟨-, rfl⟩ := Prod.mk.inj (Except.ok.inj (hwl.symm.trans hl'))
        exact hor y ok hy

/-- FAIL: some visit of the walk fails exactly when visiting the nodes one after the other fails. -/
theorem exists_tries_false : (∃ y, Tries visit t s y false) ↔ ∃ s', visitAll visit (preorder t) s = .ok (false, s') := by
  constructor
  · rintro ⟨y, hy⟩
    match h : visitAll visit (preorder t) s with
    | .error e => exact absurd ((walk_of_stop h).2 y false hy) (by simp)
    | .ok (true, s') => exact absurd ((walk_of_visitAll h).2.2 y false hy) (by simp)
    | .ok (false, s') => exact ⟨s', rfl⟩
  · rintro ⟨s', h⟩
    induction t generalizing s with
    | nil => cases h
    | node l x r ihl ihr =>
      rw [preorder, cons_append, visitAll] at h
      split at h
      · cases h
      · next hx => exact ⟨x, .here hx⟩
      next s₁ hx =>
      rw [visitAll_append] at h
      split at h
      · cases h
      · next s₂ hl =>
        obtain ⟨y, hy⟩ := ihl (hl.trans h)
        exact ⟨y, .left hx hy⟩
      · next s₂ hl =>
        obtain ⟨y, hy⟩ := ihr h
        exact ⟨y, .right hx (walk_of_visitAll hl).1 hy⟩

end Advos.Visit
