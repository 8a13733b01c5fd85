import Advos.Schemes.SearchTree
import Advos.Schemes.Word

/-! The binary trees of `tree.c`.

    A node is three words that are part of a larger structure:

        node ─▶ | left | right | data |          data points back to the structure

    The memory is untyped, a function from addresses to 64-bit words, so that a pointer to a pointer
    is an address, and a function that takes a `void *` reads whatever is there. The recursions take
    fuel, one unit a node: more than there are addresses is only needed on a cycle, where the source
    does not return. -/

namespace Advos.Vmem
open SearchTree Function List

abbrev Mem := ℕ → ℕ

/-- How a call can fail to return: a failed `kassert` or a trap, or a loop that does not end. -/
inductive Stop
  | panic | hang
deriving DecidableEq, Repr

/-- `*a = v`. -/
def set (m : Mem) (a v : ℕ) : Mem := Function.update m a v

@[simp] theorem set_self (m : Mem) (a v : ℕ) : set m a v a = v := update_self ..

theorem set_of_ne {m : Mem} {a a' v : ℕ} (h : a' ≠ a) : set m a v a' = m a' := update_of_ne h ..

/-- `kassert`. -/
def kassert (c : Bool) : Except Stop Unit := if c then pure () else .error .panic

/-- More steps than a walk without a cycle can take. -/
def fuel : ℕ := 2 ^ 64

/-! ### The functions of `tree.c` -/

/-- `btree_add`: `t` is the address of the pointer to the tree. -/
def btreeAdd (comp : Mem → ℕ → ℕ → ℤ) (allowdup : Bool) (n : ℕ) : ℕ → Mem → ℕ → Except Stop (ℤ × Mem)
  | 0, _, _ => .error .hang
  | k + 1, m, t =>
    if m t = 0 then pure (0, set (set (set m t n) n 0) (n + 8) 0)
    else if !allowdup ∧ comp m (m (n + 16)) (m t) = 0 then pure (-1, m)
    else if comp m (m (n + 16)) (m t) > 0 then btreeAdd comp allowdup n k m (m t + 8)
    else btreeAdd comp allowdup n k m (m t)

/-- `while ( NULL != *x ) x = &(*x)->right;`. -/
def lastRight : ℕ → Mem → ℕ → Except Stop ℕ
  | 0, _, _ => .error .hang
  | k + 1, m, x => if m x = 0 then pure x else lastRight k m (m x + 8)

/-- The node `n` at `*t` is replaced by its subtrees. -/
def unlinkNode (m : Mem) (t n : ℕ) : Except Stop Mem :=
  if m n ≠ 0 ∧ m (n + 8) ≠ 0 then do
    let m := set m t (m n)
    let x ← lastRight fuel m n
    pure (set m x (m (n + 8)))
  else if m n ≠ 0 then pure (set m t (m n))
  else if m (n + 8) ≠ 0 then pure (set m t (m (n + 8)))
  else pure (set m t 0)

/-- `btree_delete`; 0 is NULL. -/
def btreeDelete (comp : Mem → ℕ → ℕ → ℤ) (n : ℕ) : ℕ → Mem → ℕ → Except Stop (ℕ × Mem)
  | 0, _, _ => .error .hang
  | k + 1, m, t =>
    if m t = 0 then pure (0, m)
    else if m t = n then do
      let m ← unlinkNode m t n
      pure (n, m)
    else if comp m (m (n + 16)) (m t) > 0 then btreeDelete comp n k m (m t + 8)
    else btreeDelete comp n k m (m t)

/-- `btree_search`; `data` is handed through the conditions. -/
def btreeSearch {σ : Type} (cond : ℕ → σ → ℤ × σ) : ℕ → Mem → ℕ → σ → Except Stop (ℕ × σ)
  | 0, _, _, _ => .error .hang
  | k + 1, m, n, s =>
    if n = 0 then pure (0, s)
    else if (cond (m (n + 16)) s).1 = 0 then pure (n, (cond (m (n + 16)) s).2)
    else if (cond (m (n + 16)) s).1 > 0 then btreeSearch cond k m (m (n + 8)) (cond (m (n + 16)) s).2
    else btreeSearch cond k m (m n) (cond (m (n + 16)) s).2

/-- The nodes that `btree_add` and `btree_delete` hand to `comp` for the node `n` of `data`. -/
def passed (comp : Mem → ℕ → ℕ → ℤ) (data n : ℕ) : ℕ → Mem → ℕ → List ℕ
  | 0, _, _ => []
  | k + 1, m, t =>
    if m t = 0 then []
    else if m t = n then []
    else m t :: passed comp data n k m (if comp m data (m t) > 0 then m t + 8 else m t)

/-! ### Trees in memory -/

/-- At `p` is the tree `T` of structures that hold their nodes at `off`. -/
def Rep (off : ℕ) (m : Mem) : ℕ → BTree ℕ → Prop
  | p, .nil => p = 0
  | p, .node l s r => p = s + off ∧ s ≠ 0 ∧ Rep off m (m (s + off)) l ∧ Rep off m (m (s + off + 8)) r

instance decidableRep (off : ℕ) (m : Mem) : ∀ (p : ℕ) (T : BTree ℕ), Decidable (Rep off m p T)
  | p, .nil => inferInstanceAs (Decidable (p = 0))
  | p, .node l s r =>
    have := decidableRep off m (m (s + off)) l
    have := decidableRep off m (m (s + off + 8)) r
    inferInstanceAs (Decidable (p = s + off ∧ s ≠ 0 ∧ Rep off m (m (s + off)) l ∧ Rep off m (m (s + off + 8)) r))

/-- The structures do not overlap. -/
def Apart (d x y : ℕ) : Prop := x + d ≤ y ∨ y + d ≤ x

def Spread (d : ℕ) (T : BTree ℕ) : Prop := T.inorder.Pairwise (Apart d)

/-- The address `a` is not a link of a node of `T`. -/
def Outside (off a : ℕ) (T : BTree ℕ) : Prop := ∀ s ∈ T.inorder, a ≠ s + off ∧ a ≠ s + off + 8

variable {off d k t n p : ℕ} {m m' : Mem} {T l r : BTree ℕ} {x s a : ℕ}

theorem Apart.symm (h : Apart d x s) : Apart d s x := Or.symm h

instance : Std.Symm (Apart d) := ⟨fun _ _ => Apart.symm⟩

theorem Spread.nodup (h : Spread d T) (hd : 0 < d) : T.inorder.Nodup := by
  refine List.Pairwise.imp (fun {x y} hxy => ?_) h
  rcases hxy with hxy | hxy <;> omega

theorem spread_node : Spread d (.node l s r) ↔ Spread d l ∧ Spread d r ∧ (∀ x ∈ l.inorder, Apart d x s) ∧
    (∀ y ∈ r.inorder, Apart d s y) ∧ ∀ x ∈ l.inorder, ∀ y ∈ r.inorder, Apart d x y := by
  simp only [Spread, BTree.inorder_node, pairwise_append, pairwise_cons, mem_cons,
    forall_eq_or_imp]
  constructor
  · rintro ⟨hl, ⟨hs, hr⟩, hx⟩
    exact ⟨hl, hr, fun x hxl => (hx x hxl).1, hs, fun x hxl => (hx x hxl).2⟩
  · rintro ⟨hl, hr, hls, hs, hx⟩
    exact ⟨hl, ⟨hs, hr⟩, fun x hxl => ⟨hls x hxl, hx x hxl⟩⟩

theorem Spread.perm {T T' : BTree ℕ} (h : Spread d T) (hp : T'.inorder.Perm T.inorder) : Spread d T' :=
  (hp.pairwise_iff fun {_ _} => Apart.symm).mpr h

theorem outside_node : Outside off a (.node l s r) ↔
    Outside off a l ∧ (a ≠ s + off ∧ a ≠ s + off + 8) ∧ Outside off a r := by
  simp only [Outside, BTree.mem_node]
  constructor
  · intro h
    exact ⟨fun x hx => h x (.inl hx), h s (.inr (.inl rfl)), fun x hx => h x (.inr (.inr hx))⟩
  · rintro ⟨hl, hs, hr⟩ x (hx | rfl | hx)
    · exact hl x hx
    · exact hs
    · exact hr x hx

/-- The links of a structure are outside a tree that it is apart from. -/
theorem Outside.of_apart (h : ∀ x ∈ T.inorder, Apart 24 s x) :
    Outside off (s + off) T ∧ Outside off (s + off + 8) T := by
  refine ⟨fun x hx => ?_, fun x hx => ?_⟩ <;> rcases h x hx with h | h <;> constructor <;> omega

theorem Rep.congr (h : Rep off m p T)
    (heq : ∀ s ∈ T.inorder, m' (s + off) = m (s + off) ∧ m' (s + off + 8) = m (s + off + 8)) :
    Rep off m' p T := by
  induction T generalizing p with
  | nil => exact h
  | node l s r ihl ihr =>
    obtain ⟨hp, hs, hl, hr⟩ := h
    obtain ⟨h1, h2⟩ := heq s BTree.mem_root
    refine ⟨hp, hs, ?_, ?_⟩
    · rw [h1]
      exact ihl hl fun x hx => heq x (BTree.mem_left hx)
    · rw [h2]
      exact ihr hr fun x hx => heq x (BTree.mem_right hx)

theorem Rep.eq_zero_iff (h : Rep off m p T) : p = 0 ↔ T = .nil := by
  cases T with
  | nil => exact ⟨fun _ => rfl, fun _ => h⟩
  | node l s r =>
    obtain ⟨hp, hs, -⟩ := h
    constructor
    · intro h0
      omega
    · intro h0
      cases h0

theorem Rep.unique {T' : BTree ℕ} (h : Rep off m p T) (h' : Rep off m p T') : T = T' := by
  induction T generalizing p T' with
  | nil => exact (h'.eq_zero_iff.mp h).symm
  | node l s r ihl ihr =>
    obtain ⟨hp, hs, hl, hr⟩ := h
    cases T' with
    | nil => exact absurd (h'.symm.trans hp) (by omega)
    | node l' s' r' =>
      obtain ⟨hp', -, hl', hr'⟩ := h'
      obtain rfl : s = s' := by omega
      rw [ihl hl hl', ihr hr hr']

/-- A unit of fuel pays for the root; what is left is enough for the subtrees. -/
theorem fuel_node (hk : (BTree.node l s r).inorder.length < k) :
    ∃ j, k = j + 1 ∧ l.inorder.length < j ∧ r.inorder.length < j := by
  rw [BTree.inorder_node, length_append, length_cons] at hk
  exact ⟨k - 1, by omega, by omega, by omega⟩

/-- The tree `T`, its nodes not overlapping, hangs at a pointer outside of it. -/
structure Hangs (off : ℕ) (m : Mem) (t : ℕ) (T : BTree ℕ) : Prop where
  rep : Rep off m (m t) T
  spread : Spread 24 T
  outside : Outside off t T

/-- Only the pointer at `t`, links of `T` and words for which `P` holds have changed. -/
def Frame (off t : ℕ) (T : BTree ℕ) (P : ℕ → Prop) (m m' : Mem) : Prop :=
  ∀ a, a ≠ t → Outside off a T → ¬P a → m' a = m a

namespace Hangs
variable (h : Hangs off m t (.node l s r))
include h

theorem root : m t = s + off ∧ m t ≠ 0 := by
  obtain ⟨hp, hs, -⟩ := h.rep
  exact ⟨hp, by omega⟩

theorem left : Hangs off m (s + off) l :=
  ⟨h.rep.2.2.1, (spread_node.mp h.spread).1,
    (Outside.of_apart fun x hx => ((spread_node.mp h.spread).2.2.1 x hx).symm).1⟩

theorem right : Hangs off m (s + off + 8) r :=
  ⟨h.rep.2.2.2, (spread_node.mp h.spread).2.1, (Outside.of_apart (spread_node.mp h.spread).2.2.2.1).2⟩

/-- Another tree below one link of the root: the rest of the node is as it was. -/
theorem replace {P : ℕ → Prop} (hP : ∀ a, P a → a ≠ t ∧ Outside off a (.node l s r)) :
    (∀ l', Rep off m' (m' (s + off)) l' → Frame off (s + off) l P m m' →
      Rep off m' (m' t) (.node l' s r) ∧ Frame off t (.node l s r) P m m') ∧
    ∀ r', Rep off m' (m' (s + off + 8)) r' → Frame off (s + off + 8) r P m m' →
      Rep off m' (m' t) (.node l s r') ∧ Frame off t (.node l s r) P m m' := by
  obtain ⟨hp, hs, hl, hr⟩ := h.rep
  obtain ⟨-, -, hls, hsr, hlr⟩ := spread_node.mp h.spread
  obtain ⟨htl, hts, htr⟩ := outside_node.mp h.outside
  have hsl : Outside off (s + off) l ∧ Outside off (s + off + 8) l :=
    Outside.of_apart fun x hx => (hls x hx).symm
  have hsr : Outside off (s + off) r ∧ Outside off (s + off + 8) r := Outside.of_apart hsr
  have ht : ¬P t := fun ha => (hP t ha).1 rfl
  have hx1 : ∀ x ∈ (BTree.node l s r).inorder, ¬P (x + off) := fun x hx ha => ((hP _ ha).2 x hx).1 rfl
  have hx2 : ∀ x ∈ (BTree.node l s r).inorder, ¬P (x + off + 8) := fun x hx ha => ((hP _ ha).2 x hx).2 rfl
  refine ⟨fun l' hl' hframe => ⟨⟨?_, hs, hl', ?_⟩, fun a _ ha => ?_⟩,
    fun r' hr' hframe => ⟨⟨?_, hs, ?_, hr'⟩, fun a _ ha => ?_⟩⟩
  · rw [hframe t hts.1 htl ht, hp]
  · rw [hframe _ (by omega) hsl.2 (hx2 s BTree.mem_root)]
    refine hr.congr fun x hx => ?_
    have hxl : ∀ y ∈ l.inorder, Apart 24 x y := fun y hy => (hlr y hy x hx).symm
    exact ⟨hframe _ (hsr.1 x hx).1.symm (Outside.of_apart hxl).1 (hx1 x (BTree.mem_right hx)),
      hframe _ (hsr.1 x hx).2.symm (Outside.of_apart hxl).2 (hx2 x (BTree.mem_right hx))⟩
  · obtain ⟨hal, has, -⟩ := outside_node.mp ha
    exact hframe a has.1 hal
  · rw [hframe t hts.2 htr ht, hp]
  · rw [hframe _ (by omega) hsr.1 (hx1 s BTree.mem_root)]
    exact hl.congr fun x hx => ⟨
      hframe _ (hsl.2 x hx).1.symm (Outside.of_apart (hlr x hx)).1 (hx1 x (BTree.mem_left hx)),
      hframe _ (hsl.2 x hx).2.symm (Outside.of_apart (hlr x hx)).2 (hx2 x (BTree.mem_left hx))⟩
  · obtain ⟨-, has, har⟩ := outside_node.mp ha
    exact hframe a has.2 har

end Hangs

/-! ### `btree_add` -/

/-- The links of the structure `n`. -/
def LinkOf (off n a : ℕ) : Prop := a = n + off ∨ a = n + off + 8

/-- `btree_add` is `add` on the tree; `comp` is asked about nodes, not about structures. -/
theorem btreeAdd_rep (comp : Mem → ℕ → ℕ → ℤ) (dup : Bool) (hT : Hangs off m t T) (hn0 : n ≠ 0)
    (hn : ∀ x ∈ T.inorder, Apart 24 n x) (hnt : ¬LinkOf off n t) (hk : T.inorder.length < k) :
    match T.add (fun y => comp m (m (n + off + 16)) (y + off)) dup n with
    | none => btreeAdd comp dup (n + off) k m t = .ok (-1, m)
    | some T' => ∃ m', btreeAdd comp dup (n + off) k m t = .ok (0, m') ∧ Rep off m' (m' t) T' ∧
        Frame off t T (LinkOf off n) m m' := by
  induction T generalizing t k with
  | nil =>
    obtain ⟨k, rfl⟩ := Nat.exists_eq_succ_of_ne_zero (Nat.ne_zero_of_lt hk)
    simp only [LinkOf, not_or] at hnt
    have hmt : m t = 0 := hT.rep
    refine ⟨set (set (set m t (n + off)) (n + off) 0) (n + off + 8) 0, ?_, ?_, fun a hat _ hP => ?_⟩
    · rw [btreeAdd, if_pos hmt]
      rfl
    · have hpt : set (set (set m t (n + off)) (n + off) 0) (n + off + 8) 0 t = n + off := by
        rw [set_of_ne hnt.2, set_of_ne hnt.1, set_self]
      refine ⟨hpt, hn0, ?_, set_self ..⟩
      show set _ _ _ _ = 0
      rw [set_of_ne (by omega), set_self]
    · simp only [LinkOf, not_or] at hP
      rw [set_of_ne hP.2, set_of_ne hP.1, set_of_ne hat]
  | node l y r ihl ihr =>
    obtain ⟨k, rfl, hkl, hkr⟩ := fuel_node hk
    obtain ⟨hpy, hmt⟩ := hT.root
    have hlink : ∀ x ∈ (BTree.node l y r).inorder, ¬LinkOf off n (x + off) ∧ ¬LinkOf off n (x + off + 8) := by
      intro x hx
      simp only [LinkOf, not_or]
      rcases hn x hx with h | h <;> omega
    have hP : ∀ a, LinkOf off n a → a ≠ t ∧ Outside off a (.node l y r) := by
      refine fun a ha => ⟨?_, fun x hx => ⟨?_, ?_⟩⟩
      · rintro rfl
        exact hnt ha
      · rintro rfl
        exact (hlink x hx).1 ha
      · rintro rfl
        exact (hlink x hx).2 ha
    obtain ⟨hyl, hyr⟩ := hlink y BTree.mem_root
    rw [BTree.add, btreeAdd, if_neg hmt, hpy]
    by_cases hdup : (!dup) = true ∧ comp m (m (n + off + 16)) (y + off) = 0
    · rw [if_pos hdup, if_pos hdup]
      rfl
    rw [if_neg hdup, if_neg hdup]
    by_cases hpos : comp m (m (n + off + 16)) (y + off) > 0
    · -- down the right link
      rw [if_pos hpos, if_pos hpos]
      have ih := ihr hT.right (fun x hx => hn x (BTree.mem_right hx)) hyr hkr
      cases hadd : r.add (fun y => comp m (m (n + off + 16)) (y + off)) dup n with
      | none =>
        rw [hadd] at ih
        exact ih
      | some r' =>
        rw [hadd] at ih
        obtain ⟨m', hrun, hrep, hframe⟩ := ih
        exact ⟨m', hrun, (hT.replace hP).2 r' hrep hframe⟩
    · rw [if_neg hpos, if_neg hpos]
      have ih := ihl hT.left (fun x hx => hn x (BTree.mem_left hx)) hyl hkl
      cases hadd : l.add (fun y => comp m (m (n + off + 16)) (y + off)) dup n with
      | none =>
        rw [hadd] at ih
        exact ih
      | some l' =>
        rw [hadd] at ih
        obtain ⟨m', hrun, hrep, hframe⟩ := ih
        exact ⟨m', hrun, (hT.replace hP).1 l' hrep hframe⟩

/-! ### `btree_delete` -/

/-- The loop ends at the right link of the last node, and a tree stored there hangs below it. -/
theorem lastRight_rep (hl : Hangs off m x l) (hk : l.inorder.length < k) :
    ∃ c, lastRight k m x = .ok c ∧ (l = .nil ∧ c = x ∨ ∃ y ∈ l.inorder, c = y + off + 8) ∧
      ∀ q R, Rep off (set m c q) q R → Rep off (set m c q) (set m c q x) (l.hang R) := by
  induction l generalizing x k with
  | nil =>
    obtain ⟨k, rfl⟩ := Nat.exists_eq_succ_of_ne_zero (Nat.ne_zero_of_lt hk)
    have hmx : m x = 0 := hl.rep
    refine ⟨x, by rw [lastRight, if_pos hmx]; rfl, .inl ⟨rfl, rfl⟩, fun q R hR => ?_⟩
    rw [set_self]
    exact hR
  | node a y b _ ih =>
    obtain ⟨k, rfl, -, hkb⟩ := fuel_node hk
    obtain ⟨hpy, hmx⟩ := hl.root
    obtain ⟨c, hrun, hc, hrep⟩ := ih hl.right hkb
    have hcb : c = y + off + 8 ∨ ∃ z ∈ b.inorder, c = z + off + 8 := hc.imp And.right id
    refine ⟨c, ?_, .inr ?_, fun q R hR => ?_⟩
    · rw [lastRight, if_neg hmx, hpy, hrun]
    · rcases hcb with rfl | ⟨z, hz, rfl⟩
      · exact ⟨y, BTree.mem_root, rfl⟩
      · exact ⟨z, BTree.mem_right hz, rfl⟩
    · -- the cell found is in the right part, so that the rest of the node is as it was
      refine ((hl.replace (P := fun _ => False) fun _ h => h.elim).2 _ (hrep q R hR) fun d hd hout _ => ?_).1
      rcases hcb with rfl | ⟨z, hz, rfl⟩
      · exact set_of_ne hd
      · exact set_of_ne (hout z hz).2

theorem unlinkNode_rep (hT : Hangs off m t (.node l n r)) (hlen : l.inorder.length < fuel) :
    ∃ m', unlinkNode m t (n + off) = .ok m' ∧ Rep off m' (m' t) (l.hang r) ∧
      Frame off t (.node l n r) (fun _ => False) m m' := by
  obtain ⟨-, hn0, hl, hr⟩ := hT.rep
  obtain ⟨hspl, hspr, hln, hnr, hlr⟩ := spread_node.mp hT.spread
  obtain ⟨htl, htn, htr⟩ := outside_node.mp hT.outside
  have hkeep : ∀ {T' : BTree ℕ} {q v}, Outside off t T' → Rep off m q T' → Rep off (set m t v) q T' := by
    intro T' q v hout h
    exact h.congr fun s hs => ⟨set_of_ne (hout s hs).1.symm, set_of_ne (hout s hs).2.symm⟩
  have hframe : ∀ {v}, Frame off t (.node l n r) (fun _ => False) m (set m t v) :=
    fun a hat _ _ => set_of_ne hat
  by_cases hL : m (n + off) = 0
  · -- no left subtree: `hang` gives the right one
    obtain rfl := hl.eq_zero_iff.mp hL
    refine ⟨set m t (m (n + off + 8)), ?_, ?_, hframe⟩
    · rw [unlinkNode, if_neg fun h => h.1 hL, if_neg fun h => h hL]
      split
      · rfl
      · next h0 =>
        rw [ne_eq, not_not] at h0
        rw [h0]
        rfl
    · rw [set_self]
      exact hkeep htr hr
  by_cases hR : m (n + off + 8) = 0
  · obtain rfl := hr.eq_zero_iff.mp hR
    have hnil : ∀ l : BTree ℕ, l.hang .nil = l := by
      intro l
      induction l with
      | nil => rfl
      | node a y b _ ih => rw [BTree.hang, ih]
    refine ⟨set m t (m (n + off)), ?_, ?_, hframe⟩
    · rw [unlinkNode, if_neg fun h => h.2 hR, if_pos hL]
      rfl
    · rw [set_self, hnil]
      exact hkeep htl hl
  · -- both: the right one goes below the last node of the left one
    have hlt : Rep off (set m t (m (n + off))) (set m t (m (n + off)) (n + off)) l := by
      rw [set_of_ne htn.1.symm]
      exact hkeep htl hl
    obtain ⟨c, hrun, hc, hrep⟩ := lastRight_rep ⟨hlt, hspl, hT.left.outside⟩ hlen
    obtain ⟨y, hy, rfl⟩ : ∃ y ∈ l.inorder, c = y + off + 8 := by
      rcases hc with ⟨hnil, -⟩ | hc
      · exact absurd (hl.eq_zero_iff.mpr hnil) hL
      · exact hc
    have hq : set m t (m (n + off)) (n + off + 8) = m (n + off + 8) := set_of_ne htn.2.symm
    have hny := (hln y hy).symm
    have hr' : Rep off (set (set m t (m (n + off))) (y + off + 8) (m (n + off + 8))) (m (n + off + 8)) r := by
      have hr1 : Rep off (set m t (m (n + off))) (m (n + off + 8)) r := hkeep htr hr
      refine hr1.congr fun s hs => ?_
      rcases hlr y hy s hs with h | h <;> exact ⟨set_of_ne (by omega), set_of_ne (by omega)⟩
    refine ⟨set (set m t (m (n + off))) (y + off + 8) (m (n + off + 8)), ?_, ?_, fun a hat ha _ => ?_⟩
    · rw [unlinkNode, if_pos ⟨hL, hR⟩]
      simp only [hrun, hq, bind, Except.bind, pure, Except.pure]
    · have htop : set (set m t (m (n + off))) (y + off + 8) (m (n + off + 8)) t =
          set (set m t (m (n + off))) (y + off + 8) (m (n + off + 8)) (n + off) := by
        rw [set_of_ne (htl y hy).2, set_self, set_of_ne (by rcases hny with h | h <;> omega),
          set_of_ne htn.1.symm]
      rw [htop]
      exact hrep _ _ hr'
    · obtain ⟨hal, -, -⟩ := outside_node.mp ha
      rw [set_of_ne (hal y hy).2, set_of_ne hat]

theorem btreeDelete_rep (comp : Mem → ℕ → ℕ → ℤ) (n : ℕ) (hT : Hangs off m t T) (hk : T.inorder.length < k)
    (hfuel : T.inorder.length < fuel) :
    match T.delete (fun y => comp m (m (n + off + 16)) (y + off)) n with
    | none => btreeDelete comp (n + off) k m t = .ok (0, m)
    | some T' => ∃ m', btreeDelete comp (n + off) k m t = .ok (n + off, m') ∧ Rep off m' (m' t) T' ∧
        Frame off t T (fun _ => False) m m' := by
  induction T generalizing t k with
  | nil =>
    obtain ⟨k, rfl⟩ := Nat.exists_eq_succ_of_ne_zero (Nat.ne_zero_of_lt hk)
    have hmt : m t = 0 := hT.rep
    show btreeDelete comp (n + off) (k + 1) m t = .ok (0, m)
    rw [btreeDelete, if_pos hmt]
    rfl
  | node l y r ihl ihr =>
    obtain ⟨k, rfl, hkl, hkr⟩ := fuel_node hk
    obtain ⟨j, hj, hjl, hjr⟩ := fuel_node hfuel
    obtain ⟨hpy, hmt⟩ := hT.root
    have hP : ∀ a, False → a ≠ t ∧ Outside off a (.node l y r) := fun _ h => h.elim
    rw [BTree.delete, btreeDelete, if_neg hmt, hpy]
    rcases eq_or_ne y n with rfl | hyn
    · rw [if_pos rfl, if_pos rfl]
      obtain ⟨m', hrun, hrep, hframe⟩ := unlinkNode_rep hT (by omega)
      exact ⟨m', by rw [hrun]; rfl, hrep, hframe⟩
    have hyn' : y + off ≠ n + off := by omega
    rw [if_neg hyn, if_neg hyn']
    by_cases hpos : comp m (m (n + off + 16)) (y + off) > 0
    · rw [if_pos hpos, if_pos hpos]
      have ih := ihr hT.right hkr (by omega)
      cases hdel : r.delete (fun y => comp m (m (n + off + 16)) (y + off)) n with
      | none =>
        rw [hdel] at ih
        exact ih
      | some r' =>
        rw [hdel] at ih
        obtain ⟨m', hrun, hrep, hframe⟩ := ih
        exact ⟨m', hrun, (hT.replace hP).2 r' hrep hframe⟩
    · rw [if_neg hpos, if_neg hpos]
      have ih := ihl hT.left hkl (by omega)
      cases hdel : l.delete (fun y => comp m (m (n + off + 16)) (y + off)) n with
      | none =>
        rw [hdel] at ih
        exact ih
      | some l' =>
        rw [hdel] at ih
        obtain ⟨m', hrun, hrep, hframe⟩ := ih
        exact ⟨m', hrun, (hT.replace hP).1 l' hrep hframe⟩

/-! ### `btree_search` and the way down -/

/-- Every structure's node points back to it. -/
def Data (off : ℕ) (m : Mem) (T : BTree ℕ) : Prop := ∀ s ∈ T.inorder, m (s + off + 16) = s

instance (off : ℕ) (m : Mem) (T : BTree ℕ) : Decidable (Data off m T) :=
  inferInstanceAs (Decidable (∀ s ∈ T.inorder, m (s + off + 16) = s))

theorem data_node : Data off m (.node l s r) ↔ Data off m l ∧ m (s + off + 16) = s ∧ Data off m r := by
  simp only [Data, BTree.mem_node]
  constructor
  · intro h
    exact ⟨fun x hx => h x (.inl hx), h s (.inr (.inl rfl)), fun x hx => h x (.inr (.inr hx))⟩
  · rintro ⟨hl, hs, hr⟩ x (hx | rfl | hx)
    · exact hl x hx
    · exact hs
    · exact hr x hx

/-- The pointer to the node of a structure that may be missing. -/
def nodePtr (off : ℕ) : Option ℕ → ℕ
  | none => 0
  | some s => s + off

theorem btreeSearch_rep {σ : Type} (cond : ℕ → σ → ℤ × σ) (hT : Rep off m p T) (hd : Data off m T)
    (hk : T.inorder.length < k) (z : σ) :
    btreeSearch cond k m p z = .ok (nodePtr off (T.search cond z).1, (T.search cond z).2) := by
  induction T generalizing p k z with
  | nil =>
    obtain ⟨k, rfl⟩ := Nat.exists_eq_succ_of_ne_zero (Nat.ne_zero_of_lt hk)
    have hp : p = 0 := hT
    rw [btreeSearch, if_pos hp]
    rfl
  | node l y r ihl ihr =>
    obtain ⟨k, rfl, hkl, hkr⟩ := fuel_node hk
    obtain ⟨hpy, hy0, hl, hr⟩ := hT
    obtain ⟨hdl, hdy, hdr⟩ := data_node.mp hd
    have hp0 : p ≠ 0 := by omega
    rw [btreeSearch, if_neg hp0, hpy, hdy, BTree.search]
    split
    · rfl
    split
    · exact ihr hr hdr hkr _
    · exact ihl hl hdl hkl _

theorem passed_rep {comp : Mem → ℕ → ℕ → ℤ} (hT : Rep off m (m t) T) (hk : T.inorder.length < k) :
    passed comp s (n + off) k m t = (T.path (fun y => comp m s (y + off)) n).map (· + off) := by
  induction T generalizing t k with
  | nil =>
    obtain ⟨k, rfl⟩ := Nat.exists_eq_succ_of_ne_zero (Nat.ne_zero_of_lt hk)
    have hmt : m t = 0 := hT
    rw [passed, if_pos hmt]
    rfl
  | node l y r ihl ihr =>
    obtain ⟨k, rfl, hkl, hkr⟩ := fuel_node hk
    obtain ⟨hpy, hy0, hl, hr⟩ := hT
    have hmt : m t ≠ 0 := by omega
    rw [passed, if_neg hmt, hpy, BTree.path]
    rcases eq_or_ne y n with rfl | hyn
    · rw [if_pos rfl, if_pos rfl]
      rfl
    have hyn' : y + off ≠ n + off := by omega
    rw [if_neg hyn', if_neg hyn, map_cons]
    congr 1
    split
    · exact ihr hr hkr
    · exact ihl hl hkl

end Advos.Vmem
