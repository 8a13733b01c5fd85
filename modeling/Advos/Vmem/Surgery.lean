import Advos.Vmem.Fork

/-! What `btree_add` and `btree_delete` do to the sequence of the nodes, whatever the comparator answers.

    The comparator decides where a node goes and which way a search for it takes. It decides nothing else: nodes are
    neither lost nor doubled nor put in another order.

        in order     a  b  c  d             a  b  n  c  d             a  b  d
                                   add n                    delete c

    Nodes are 24 bytes, `left`, `right` and `data`. The tree hangs at a pointer outside its nodes. -/

namespace Advos.Vmem
open SearchTree List

/-- The tree `T` of nodes, none overlapping another one or the pointer at `t`, hangs at `t`. -/
structure TreeAt (m : Mem) (t : ℕ) (T : BTree ℕ) : Prop where
  rep : Rep 0 m (m t) T
  spread : Spread 24 T
  pointer : ∀ s ∈ T.inorder, t + 8 ≤ s ∨ s + 24 ≤ t
  space : ∀ s ∈ T.inorder, s + 24 ≤ 2 ^ 64

/-- A node that is not in the tree: 24 bytes apart from its nodes and from the pointer. -/
structure NewNode (t : ℕ) (T : BTree ℕ) (n : ℕ) : Prop where
  ne_null : n ≠ 0
  apart : ∀ s ∈ T.inorder, Apart 24 n s
  pointer : t + 8 ≤ n ∨ n + 24 ≤ t
  space : n + 24 ≤ 2 ^ 64

/-- `btree_traverse` of the tree at `t`, with any callback that returns 0, visits the nodes `ns` in their order. -/
def Visits (m : Mem) (t : ℕ) (ns : List ℕ) : Prop :=
  ∀ (τ : Type) (f : ℕ → τ → τ) (s : τ),
    btreeTraverse (fun d s => (0, f d s)) m fuel (m t) s = .ok (0, (ns.map fun n => m (n + 16)).foldl (fun s d => f d s) s)

/-- A finite tree with the nodes `ns` in order hangs at `t`, and a traversal visits them. -/
def Sequence (m : Mem) (t : ℕ) (ns : List ℕ) : Prop := ∃ T, TreeAt m t T ∧ T.inorder = ns ∧ Visits m t ns

variable {m m' : Mem} {t n : ℕ} {T T' : BTree ℕ}

namespace TreeAt

theorem nodup (h : TreeAt m t T) : T.inorder.Nodup := h.spread.nodup (by decide)

theorem length_lt (h : TreeAt m t T) : T.inorder.length < fuel := by
  have hsub : T.inorder ⊆ List.range (2 ^ 64 - 1) := fun s hs => by
    have := h.space s hs
    exact mem_range.mpr (by omega)
  have hle := (h.nodup.subperm hsub).length_le
  rw [length_range] at hle
  exact lt_of_le_of_lt hle (by decide)

theorem outside (h : TreeAt m t T) : Outside 0 t T := by
  intro s hs
  rcases h.pointer s hs with hp | hp <;> omega

theorem sequence (h : TreeAt m t T) : Sequence m t T.inorder :=
  ⟨T, h, rfl, fun _ f s => btreeTraverse_rep f h.rep h.length_lt s⟩

end TreeAt

/-- ADD: the node is inserted at one place, or the tree is as it was. -/
theorem TreeAt.add (h : TreeAt m t T) (hn : NewNode t T n) (comp : Mem → ℕ → ℕ → ℤ) (dup : Bool) :
    (∃ m' A B, btreeAdd comp dup n fuel m t = .ok (0, m') ∧ T.inorder = A ++ B ∧ Sequence m' t (A ++ n :: B))
      ∨ btreeAdd comp dup n fuel m t = .ok (-1, m) ∧ Sequence m t T.inorder := by
  have hnt : ¬LinkOf 0 n t := by
    rintro (rfl | rfl) <;> rcases hn.pointer with hp | hp <;> omega
  have hrun := btreeAdd_rep comp dup ⟨h.rep, h.spread, h.outside⟩ hn.ne_null hn.apart hnt h.length_lt
  cases hadd : T.add (fun y => comp m (m (n + 0 + 16)) (y + 0)) dup n with
  | none =>
    rw [hadd] at hrun
    exact .inr ⟨hrun, h.sequence⟩
  | some T' =>
    rw [hadd] at hrun
    obtain ⟨m', hrun, hrep, -⟩ := hrun
    obtain ⟨A, B, hold, hnew⟩ := BTree.inorder_add hadd
    have hperm := BTree.perm_add hadd
    have hT' : TreeAt m' t T' := by
      refine ⟨hrep, ?_, fun s hs => ?_, fun s hs => ?_⟩
      · refine (hperm.pairwise_iff fun {_ _} => Apart.symm).mpr (pairwise_cons.mpr ⟨hn.apart, h.spread⟩)
      · rcases mem_cons.mp (hperm.mem_iff.mp hs) with rfl | hs
        · exact hn.pointer
        · exact h.pointer s hs
      · rcases mem_cons.mp (hperm.mem_iff.mp hs) with rfl | hs
        · exact hn.space
        · exact h.space s hs
    exact .inl ⟨m', A, B, hrun, hold, hnew ▸ hT'.sequence⟩

/-- DELETE: exactly the node is removed, or the tree is as it was. -/
theorem TreeAt.delete (h : TreeAt m t T) (n : ℕ) (comp : Mem → ℕ → ℕ → ℤ) :
    (∃ m' A B, btreeDelete comp n fuel m t = .ok (n, m') ∧ T.inorder = A ++ n :: B ∧ Sequence m' t (A ++ B))
      ∨ btreeDelete comp n fuel m t = .ok (0, m) ∧ Sequence m t T.inorder := by
  have hrun := btreeDelete_rep comp n ⟨h.rep, h.spread, h.outside⟩ h.length_lt h.length_lt
  cases hdel : T.delete (fun y => comp m (m (n + 0 + 16)) (y + 0)) n with
  | none =>
    rw [hdel] at hrun
    exact .inr ⟨hrun, h.sequence⟩
  | some T' =>
    rw [hdel] at hrun
    obtain ⟨m', hrun, hrep, -⟩ := hrun
    obtain ⟨A, B, hold, hnew⟩ := BTree.inorder_delete hdel
    have hperm := BTree.perm_delete hdel
    have hkept : ∀ s ∈ T'.inorder, s ∈ T.inorder := fun s hs => hperm.mem_iff.mpr (mem_cons_of_mem n hs)
    have hspread : T'.inorder.Pairwise (Apart 24) :=
      ((hperm.pairwise_iff fun {_ _} => Apart.symm).mp h.spread).of_cons
    have hT' : TreeAt m' t T' :=
      ⟨hrep, hspread, fun s hs => h.pointer s (hkept s hs), fun s hs => h.space s (hkept s hs)⟩
    exact .inl ⟨m', A, B, hrun, hold, hnew ▸ hT'.sequence⟩

end Advos.Vmem
