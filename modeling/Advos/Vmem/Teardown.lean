import Advos.Vmem.Release
import Advos.Vmem.Tally
import Mathlib.Algebra.Group.Indicator

/-! Tearing an address space down (`virt_memory_release`).

    Block by block the entries are taken out of their tree, the root first, and then the free intervals.
    What is left at any time stands as it did, with one reference to an object for each entry:

        blocks    b1 ──▶ b2 ──▶ b3           entries    e1   e2   e3
        trees     -      T2     T3                       \   /     |
                                             objects      o1       o2      o1 goes with the last of e1, e2

    The loop over the free intervals takes the node of the tree for the interval that the node is a member
    of, and does not find it. -/

namespace Advos.Vmem
open SearchTree Word List

variable {σ : Type}

/-! ### The functions -/

/-- The first loop of `_release_entry`: the pages of the object are unmapped, from the start of the entry on. -/
def unmapEntry (E : Env σ) (v : ℕ) : ℕ → List Page → Machine σ → Except Stop (Machine σ)
  | _, [], M => pure M
  | virtual, p :: ps, M =>
    match E.unmap M.env (M.mem (v + 48)) virtual p with
    | (ret, s) =>
      if ret = 0 then unmapEntry E v (add64 virtual (4096 * 2 ^ p.order)) ps { M with env := s } else .error .panic

/-- A reference to the object `o` less; with the last one go the object and the nodes of its pages. The
    frames of the pages are not returned. -/
def dropObject (E : Env σ) (v o : ℕ) (M : Machine σ) : Machine σ :=
  let M := setObj M o { M.obj o with refs := (M.obj o).refs - 1 }
  if (M.obj o).refs = 0 then freeNode E v o ((M.obj o).pages.foldl (fun M p => freeNode E v p.addr M) M) else M

/-- `_release_entry`. -/
def releaseEntry (E : Env σ) (v e : ℕ) (M : Machine σ) : Except Stop (Machine σ) := do
  let o := M.mem (e + 16)
  let M ← unmapEntry E v (M.mem e) (M.obj o).pages M
  pure (freeNode E v e (dropObject E v o M))

/-- The nodes of `S` are returned, each once, and nothing else is done. -/
structure Returns (E : Env σ) (live : σ → Set ℕ) (S : Set ℕ) (s s' : σ) : Prop where
  inUse : live s' = live s \ S
  tally : ∀ w : σ → ℕ → ℤ, Counts E w (fun p => Pi.single p 1) → w s' = w s - S.indicator 1
  keeps : ∀ {α : Type} (g : σ → α), (∀ s u p, g (E.free s u p).2 = g s) → g s' = g s

section
variable {E : Env σ} {v b e f o k : ℕ} {live : σ → Set ℕ} {W : ℕ → Prop} {M M₁ M' : Machine σ} {t : Forest}
  {S S' : Set ℕ} {s s₁ s' : σ}

theorem Returns.refl (s : σ) : Returns E live ∅ s s :=
  ⟨by simp, fun w _ => by rw [Set.indicator_empty', sub_zero], fun _ _ => rfl⟩

theorem Returns.trans (h : Returns E live S s s₁) (h' : Returns E live S' s₁ s') (hd : Disjoint S S') :
    Returns E live (S ∪ S') s s' where
  inUse := by rw [h'.inUse, h.inUse, Set.sdiff_sdiff]
  tally w hw := by rw [h'.tally w hw, h.tally w hw, Set.indicator_union_of_disjoint hd, sub_sub]; rfl
  keeps g hg := (h'.keeps g hg).trans (h.keeps g hg)

theorem freeNode_returns (hE : Lawful E v live) (u p : ℕ) (M : Machine σ) :
    Returns E live {p} M.env (freeNode E u p M).env where
  inUse := freeNode_live hE u p M
  tally w hw := by rw [hw.freeNode, Set.indicator_singleton]; rfl
  keeps g hg := freeNode_env hg u p M

theorem freeNode_obj (u p : ℕ) (M : Machine σ) : (freeNode E u p M).obj = M.obj := by
  rw [freeNode]
  split <;> rfl

theorem dropObject_within (hE : Lawful E v live) (ho : o ∈ live M.env) (hpages : (M.obj o).pages = []) :
    Within v live (· = o) M (dropObject E v o M) := by
  have hset : Within v live (· = o) M (setObj M o { M.obj o with refs := (M.obj o).refs - 1 }) := within_setObj o _
  rw [dropObject]
  split
  · rw [setObj_self, hpages]
    exact hset.trans (freeNode_spec hE v (hE.node ho) _) fun _ _ heq => heq
  · exact hset

theorem dropObject_returns (hE : Lawful E v live) (hpages : (M.obj o).pages = []) :
    Returns E live (if (M.obj o).refs = 1 then {o} else ∅) M.env (dropObject E v o M).env := by
  rw [dropObject, setObj_self]
  dsimp only
  split_ifs with h0 h1 h1
  · rw [hpages]
    exact freeNode_returns hE v o (setObj M o _)
  · omega
  · omega
  · exact .refl _

theorem dropObject_obj (h : (M.obj o).refs ≠ 1) :
    (dropObject E v o M).obj o = { M.obj o with refs := (M.obj o).refs - 1 } := by
  rw [dropObject, setObj_self, if_neg (by dsimp only; omega), setObj_self]

theorem releaseEntry_empty (hpages : (M.obj (M.mem (e + 16))).pages = []) :
    releaseEntry E v e M = .ok (freeNode E v e (dropObject E v (M.mem (e + 16)) M)) := by
  rw [releaseEntry, hpages]
  rfl

theorem entryDelete_root {m : Mem} {Ta Ts l r : BTree ℕ} (H : Trees b m Ta Ts (.node l e r)) :
    ∃ m', entryDelete b e m = .ok (some e, m') ∧ Trees b m' Ta Ts (l.hang r) ∧
      EntryFrame b (BTree.node l e r).inorder m m' := by
  have hdel : (BTree.node l e r).delete (cmpAddr 40 m e) e = some (l.hang r) := by rw [BTree.delete, if_pos rfl]
  rcases entryDelete_spec H BTree.mem_root with ⟨hnone, -⟩ | ⟨Te', m', hTe, hrun, H', hfr⟩
  · rw [hdel] at hnone
    cases hnone
  · rw [hdel] at hTe
    cases hTe
    exact ⟨m', hrun, H', hfr⟩

/-- The nodes of blocks, with their trees. -/
def nodesOf (fs : List (ℕ × Forest)) : List ℕ := fs.flatMap fun x => x.1 :: x.2.nodes

def entriesOf (fs : List (ℕ × Forest)) : List ℕ := fs.flatMap fun x => x.2.e.inorder

/-- The objects of the entries. -/
def objectsOf (m : Mem) (fs : List (ℕ × Forest)) : List ℕ := (entriesOf fs).map fun e => m (e + 16)

/-- Blocks, free intervals, entries and objects. -/
def held (m : Mem) (fs : List (ℕ × Forest)) : Set ℕ := {p | p ∈ nodesOf fs ∨ p ∈ objectsOf m fs}

/-- The blocks `fs` stand, with as many references to an object as there are entries on it, and without
    pages. -/
structure Standing (live : σ → Set ℕ) (M : Machine σ) (fs : List (ℕ × Forest)) : Prop where
  blocks : ∀ x ∈ fs, Block live M x.1 x.2
  apart : (nodesOf fs).Nodup
  inUse : ∀ o ∈ objectsOf M.mem fs, o ∈ live M.env ∧ o ∉ nodesOf fs
  pages : ∀ o ∈ objectsOf M.mem fs, (M.obj o).pages = []
  refs : ∀ o ∈ objectsOf M.mem fs, (M.obj o).refs = (objectsOf M.mem fs).count o

/-- From `fs` to `fs'`: what is not left was returned. -/
structure Torn (E : Env σ) (live : σ → Set ℕ) (M : Machine σ) (fs : List (ℕ × Forest)) (M' : Machine σ)
    (fs' : List (ℕ × Forest)) : Prop where
  standing : Standing live M' fs'
  links : ∀ x ∈ fs', M'.mem (x.1 + 16) = M.mem (x.1 + 16)
  left : held M'.mem fs' ⊆ held M.mem fs
  returns : Returns E live (held M.mem fs \ held M'.mem fs') M.env M'.env

variable {fs fs' fs'' : List (ℕ × Forest)}

@[simp] theorem nodesOf_cons (x : ℕ × Forest) (fs : List (ℕ × Forest)) :
    nodesOf (x :: fs) = x.1 :: (x.2.nodes ++ nodesOf fs) := rfl

@[simp] theorem entriesOf_cons (x : ℕ × Forest) (fs : List (ℕ × Forest)) :
    entriesOf (x :: fs) = x.2.e.inorder ++ entriesOf fs := rfl

theorem mem_nodesOf {x : ℕ × Forest} (hx : x ∈ fs) {p : ℕ} (hp : p = x.1 ∨ p ∈ x.2.nodes) : p ∈ nodesOf fs :=
  mem_flatMap.mpr ⟨x, hx, mem_cons.mpr hp⟩

theorem entry_mem_nodesOf (he : e ∈ entriesOf fs) : e ∈ nodesOf fs := by
  obtain ⟨x, hx, he⟩ := mem_flatMap.mp he
  exact mem_nodesOf hx (.inr (mem_append_right _ he))

theorem Standing.node_inUse (S : Standing live M fs) {p : ℕ} (hp : p ∈ nodesOf fs) : p ∈ live M.env := by
  obtain ⟨x, hx, hp⟩ := mem_flatMap.mp hp
  rcases mem_cons.mp hp with rfl | hp
  · exact (S.blocks x hx).home.block
  · exact (S.blocks x hx).home.nodes p hp

theorem Standing.perm {M : Machine σ} {fs fs' : List (ℕ × Forest)} (S : Standing live M fs) (h : fs.Perm fs') :
    Standing live M fs' := by
  have hnodes : (nodesOf fs).Perm (nodesOf fs') := h.flatMap_right _
  have hobjs : (objectsOf M.mem fs).Perm (objectsOf M.mem fs') := (h.flatMap_right _).map _
  refine ⟨fun x hx => S.blocks x (h.mem_iff.mpr hx), hnodes.nodup_iff.mp S.apart, fun o ho => ?_,
    fun o ho => S.pages o (hobjs.mem_iff.mpr ho), fun o ho => ?_⟩
  · obtain ⟨hin, hout⟩ := S.inUse o (hobjs.mem_iff.mpr ho)
    exact ⟨hin, fun hmem => hout (hnodes.mem_iff.mpr hmem)⟩
  · rw [S.refs o (hobjs.mem_iff.mpr ho), hobjs.count_eq]

theorem Torn.refl (S : Standing live M fs) : Torn E live M fs M fs :=
  ⟨S, fun _ _ => rfl, fun _ hp => hp, by rw [Set.sdiff_self]; exact .refl _⟩

theorem Torn.trans (h : Torn E live M fs M₁ fs') (h' : Torn E live M₁ fs' M' fs'')
    (hsub : ∀ x ∈ fs'', ∃ y ∈ fs', y.1 = x.1) : Torn E live M fs M' fs'' where
  standing := h'.standing
  links x hx := by
    obtain ⟨y, hy, heq⟩ := hsub x hx
    have hlink := h.links y hy
    rw [heq] at hlink
    exact (h'.links x hx).trans hlink
  left := h'.left.trans h.left
  returns := by
    rw [← Set.sdiff_union_sdiff_cancel h.left h'.left]
    refine h.returns.trans h'.returns (Set.disjoint_left.mpr ?_)
    rintro p ⟨-, hp⟩ ⟨hp', -⟩
    exact hp hp'

/-! ### One entry -/

section Entry
variable {l r : BTree ℕ}

/-- The block without the root of its entries. -/
def Forest.unrooted (t : Forest) (l r : BTree ℕ) : Forest := ⟨t.a, t.s, l.hang r⟩

theorem Forest.unrooted_entries (ht : t.e = .node l e r) : t.e.inorder.Perm (e :: (t.unrooted l r).e.inorder) := by
  rw [ht, BTree.inorder_node, unrooted, BTree.inorder_hang]
  exact perm_middle

theorem entriesOf_unrooted (ht : t.e = .node l e r) :
    (entriesOf ((b, t) :: fs)).Perm (e :: entriesOf ((b, t.unrooted l r) :: fs)) := by
  rw [entriesOf_cons, entriesOf_cons, ← cons_append]
  exact (Forest.unrooted_entries ht).append_right _

theorem nodesOf_unrooted (ht : t.e = .node l e r) :
    (nodesOf ((b, t) :: fs)).Perm (e :: nodesOf ((b, t.unrooted l r) :: fs)) := by
  have hnodes : t.nodes.Perm (e :: (t.unrooted l r).nodes) := by
    rw [Forest.nodes, Forest.nodes]
    exact ((Forest.unrooted_entries ht).append_left _).trans perm_middle
  rw [nodesOf_cons, nodesOf_cons]
  exact ((hnodes.append_right _).cons b).trans (List.Perm.swap e b _)

theorem held_sdiff {m m' : Mem} (hperm : (entriesOf fs).Perm (e :: entriesOf fs')) (hnodes : (nodesOf fs).Perm (e :: nodesOf fs'))
    (hnodup : (nodesOf fs).Nodup) (hout : ∀ o ∈ objectsOf m fs, o ∉ nodesOf fs)
    (hobj : ∀ x ∈ entriesOf fs', m' (x + 16) = m (x + 16)) :
    held m' fs' ⊆ held m fs ∧
      held m fs \ held m' fs' = (if (objectsOf m fs).count (m (e + 16)) = 1 then {m (e + 16)} else ∅) ∪ {e} := by
  have hobjs : objectsOf m' fs' = objectsOf m fs' := map_congr_left hobj
  have hpo : (objectsOf m fs).Perm (m (e + 16) :: objectsOf m fs') := hperm.map _
  obtain ⟨he, -⟩ := nodup_cons.mp (hnodes.nodup_iff.mp hnodup)
  have heo : e ∉ objectsOf m fs' := fun h =>
    hout e (hpo.mem_iff.mpr (mem_cons_of_mem _ h)) (hnodes.mem_iff.mpr mem_cons_self)
  have hon : m (e + 16) ∉ nodesOf fs' := fun h =>
    hout _ (hpo.mem_iff.mpr mem_cons_self) (hnodes.mem_iff.mpr (mem_cons_of_mem _ h))
  have hcount : (objectsOf m fs).count (m (e + 16)) = 1 ↔ m (e + 16) ∉ objectsOf m fs' := by
    rw [hpo.count_eq, count_cons_self, Nat.add_eq_right, count_eq_zero]
  have hmem : ∀ p, p ∈ held m fs ↔ p = e ∨ p = m (e + 16) ∨ p ∈ held m' fs' := by
    intro p
    simp only [held, Set.mem_ofPred_eq, hobjs, hnodes.mem_iff, hpo.mem_iff, mem_cons]
    tauto
  have hemem : e ∉ held m' fs' := by
    rintro (h | h)
    · exact he h
    · exact heo (hobjs ▸ h)
  have homem : m (e + 16) ∈ held m' fs' ↔ m (e + 16) ∈ objectsOf m fs' := by
    simp only [held, Set.mem_ofPred_eq, hobjs, hon, false_or]
  refine ⟨fun p hp => (hmem p).mpr (.inr (.inr hp)), Set.ext fun p => ?_⟩
  simp only [Set.mem_sdiff, hmem, Set.mem_union, Set.mem_singleton_iff]
  constructor
  · rintro ⟨rfl | rfl | hp, hn⟩
    · exact .inr rfl
    · rw [if_pos (hcount.mpr fun h => hn (homem.mpr h))]
      exact .inl rfl
    · exact absurd hp hn
  · rintro (hp | rfl)
    · split at hp
      · next hn =>
        obtain rfl : p = m (e + 16) := hp
        exact ⟨.inr (.inl rfl), fun h => hcount.mp hn (homem.mp h)⟩
      · exact hp.elim
    · exact ⟨.inl rfl, hemem⟩

/-- Taking the root out of the tree of entries leaves the rest standing where it is. -/
theorem Standing.unroot (hE : Lawful E v live) (S : Standing live M ((b, t) :: fs)) (ht : t.e = .node l e r) :
    ∃ m, entryDelete b e M.mem = .ok (some e, m) ∧
      (∀ x ∈ (b, t.unrooted l r) :: fs, Block live { M with mem := m } x.1 x.2 ∧ m (x.1 + 16) = M.mem (x.1 + 16)) ∧
      ∀ x ∈ entriesOf ((b, t) :: fs), m (x + 16) = M.mem (x + 16) := by
  have B : Block live M b t := S.blocks _ mem_cons_self
  obtain ⟨m, hdel, htrees, hframe⟩ := entryDelete_root (ht ▸ B.trees)
  rw [← ht] at hframe
  have hedits := hframe.edits hE B.home.block B.entry
  obtain ⟨hbn, hnodup⟩ := nodup_cons.mp S.apart
  have hne : ∀ s ∈ t.nodes ++ nodesOf fs, s ≠ b := fun s hs heq => hbn (heq ▸ hs)
  refine ⟨m, hdel, fun x hx => ?_, fun x hx => ?_⟩
  · rcases mem_cons.mp hx with rfl | hx
    · refine ⟨⟨htrees, B.home.block, fun s hs => B.home.nodes s ?_⟩, hedits.head 16 (by decide)⟩
      rcases mem_append.mp hs with hs | hs
      · exact mem_append_left _ hs
      · exact mem_append_right _ ((Forest.unrooted_entries ht).mem_iff.mpr (mem_cons_of_mem _ hs))
    · -- the nodes of the other blocks are none of those that are written
      have hout : ∀ p, p = x.1 ∨ p ∈ x.2.nodes → ¬(p = b ∨ p ∈ t.e.inorder) := by
        intro p hp
        have hp := mem_nodesOf hx hp
        rintro (heq | hmem)
        · exact hne p (mem_append_right _ hp) heq
        · exact (nodup_append.mp hnodup).2.2 p (mem_append_right _ hmem) p hp rfl
      have Bx := S.blocks x (mem_cons_of_mem _ hx)
      exact ⟨Bx.within hedits.within (hout _ (.inl rfl)) fun s hs => hout s (.inr hs),
        hedits.within.mem x.1 Bx.home.block (hout _ (.inl rfl)) 16 (by decide)⟩
  · refine hedits.kept x (S.node_inUse (entry_mem_nodesOf hx)) (hne x ?_) 16 (by decide)
    rcases mem_append.mp hx with hx | hx
    · exact mem_append_left _ (mem_append_right _ hx)
    · exact mem_append_right _ (entry_mem_nodesOf hx)

/-- What is left after the object has lost a reference and the entry is returned. -/
theorem Standing.drop (hE : Lawful E v live) (S : Standing live M fs) (hpe : (entriesOf fs).Perm (e :: entriesOf fs'))
    (hpn : (nodesOf fs).Perm (e :: nodesOf fs')) {m : Mem}
    (hblocks : ∀ x ∈ fs', Block live { M with mem := m } x.1 x.2 ∧ m (x.1 + 16) = M.mem (x.1 + 16))
    (hkept : ∀ x ∈ entriesOf fs, m (x + 16) = M.mem (x + 16)) :
    Torn E live M fs (freeNode E v e (dropObject E v (M.mem (e + 16)) { M with mem := m })) fs' := by
  obtain ⟨o, ho⟩ : ∃ o, M.mem (e + 16) = o := ⟨_, rfl⟩
  have hpo : (objectsOf M.mem fs).Perm (o :: objectsOf M.mem fs') := ho ▸ hpe.map _
  have homem : o ∈ objectsOf M.mem fs := hpo.mem_iff.mpr mem_cons_self
  obtain ⟨he, hnodup⟩ := nodup_cons.mp (hpn.nodup_iff.mp S.apart)
  have hein : e ∈ live M.env := S.node_inUse (hpn.mem_iff.mpr mem_cons_self)
  rw [ho]
  obtain ⟨M', hM'⟩ : ∃ M', freeNode E v e (dropObject E v o { M with mem := m }) = M' := ⟨_, rfl⟩
  rw [hM']
  have hdrop : Within v live (· = o) { M with mem := m } (dropObject E v o { M with mem := m }) :=
    dropObject_within hE (S.inUse o homem).1 (S.pages o homem)
  have hw : Within v live (fun p => p = o ∨ p = e) { M with mem := m } M' := by
    rw [← hM']
    exact (hdrop.mono fun _ _ h => .inl h).trans (freeNode_spec hE v (hE.node hein) _) fun _ _ h => .inr h
  have hout : ∀ p ∈ nodesOf fs', ¬(p = o ∨ p = e) := by
    rintro p hp (rfl | rfl)
    · exact (S.inUse p homem).2 (hpn.mem_iff.mpr (mem_cons_of_mem _ hp))
    · exact he hp
  have hnode : ∀ p ∈ nodesOf fs', p ∈ live M.env := fun p hp => S.node_inUse (hpn.mem_iff.mpr (mem_cons_of_mem _ hp))
  have hobj : ∀ x ∈ entriesOf fs', M'.mem (x + 16) = M.mem (x + 16) := fun x hx =>
    (hw.mem x (hnode x (entry_mem_nodesOf hx)) (hout x (entry_mem_nodesOf hx)) 16 (by decide)).trans
      (hkept x (hpe.mem_iff.mpr (mem_cons_of_mem _ hx)))
  have hobjs : objectsOf M'.mem fs' = objectsOf M.mem fs' := map_congr_left hobj
  obtain ⟨hleft, hdiff⟩ := held_sdiff hpe hpn S.apart (fun o ho => (S.inUse o ho).2) hobj
  have hreturns : Returns E live (held M.mem fs \ held M'.mem fs') M.env M'.env := by
    have hrefs : (M.obj o).refs = 1 ↔ (objectsOf M.mem fs).count o = 1 := by
      rw [S.refs o homem]
      exact Nat.cast_eq_one
    have hone : Returns E live (if (objectsOf M.mem fs).count o = 1 then {o} else ∅) M.env
        (dropObject E v o { M with mem := m }).env := by
      rw [← if_congr hrefs rfl rfl]
      exact dropObject_returns (M := { M with mem := m }) hE (S.pages o homem)
    rw [hdiff, ho, ← hM']
    refine hone.trans (freeNode_returns hE v e _) (Set.disjoint_singleton_right.mpr fun hmem => ?_)
    have hoe : e = o := by
      split at hmem
      · exact hmem
      · exact hmem.elim
    exact (S.inUse o homem).2 (hoe ▸ hpn.mem_iff.mpr mem_cons_self)
  have hold : ∀ o' ∈ objectsOf M'.mem fs', o' ∈ objectsOf M.mem fs := fun o' ho' =>
    hpo.mem_iff.mpr (mem_cons_of_mem _ (hobjs ▸ ho'))
  have hrefs : ∀ o' ∈ objectsOf M'.mem fs', (M'.obj o').pages = [] ∧ (M'.obj o').refs = (objectsOf M'.mem fs').count o' := by
    intro o' ho'
    have hmem := hold o' ho'
    have hcount := S.refs o' hmem
    rw [hpo.count_eq] at hcount
    rw [hobjs] at ho' ⊢
    rcases eq_or_ne o' o with rfl | hne
    · rw [count_cons_self] at hcount
      have hpos := count_pos_iff.mpr ho'
      have hobj' : M'.obj o' = { M.obj o' with refs := (M.obj o').refs - 1 } := by
        rw [← hM', freeNode_obj, dropObject_obj (by dsimp only; omega)]
      rw [hobj']
      exact ⟨S.pages o' homem, by dsimp only; omega⟩
    · have hne' : o' ≠ e := fun heq => (S.inUse o' hmem).2 (heq ▸ hpn.mem_iff.mpr mem_cons_self)
      rw [count_cons_of_ne hne.symm] at hcount
      rw [hw.obj o' (S.inUse o' hmem).1 (not_or.mpr ⟨hne, hne'⟩)]
      exact ⟨S.pages o' hmem, hcount⟩
  refine ⟨⟨fun x hx => ?_, hnodup, fun o' ho' => ⟨?_, ?_⟩, fun o' ho' => (hrefs o' ho').1, fun o' ho' => (hrefs o' ho').2⟩,
    fun x hx => ?_, hleft, hreturns⟩
  · exact (hblocks x hx).1.within hw (hout _ (mem_nodesOf hx (.inl rfl))) fun s hs => hout s (mem_nodesOf hx (.inr hs))
  · rw [hreturns.inUse]
    exact ⟨(S.inUse o' (hold o' ho')).1, fun h => h.2 (.inr ho')⟩
  · exact fun h => (S.inUse o' (hold o' ho')).2 (hpn.mem_iff.mpr (mem_cons_of_mem _ h))
  · have hx' := mem_nodesOf hx (.inl rfl)
    exact (hw.mem x.1 (hnode x.1 hx') (hout x.1 hx') 16 (by decide)).trans (hblocks x hx).2

/-- STEP: the entry at the root goes, and with it its object, if it is the last one on it. -/
theorem Standing.entry (hE : Lawful E v live) (S : Standing live M ((b, t) :: fs)) (ht : t.e = .node l e r) :
    ∃ m M', entryDelete b e M.mem = .ok (some e, m) ∧ releaseEntry E v e { M with mem := m } = .ok M' ∧
      Torn E live M ((b, t) :: fs) M' ((b, t.unrooted l r) :: fs) := by
  obtain ⟨m, hdel, hblocks, hkept⟩ := S.unroot hE ht
  have hpe : (entriesOf ((b, t) :: fs)).Perm (e :: entriesOf ((b, t.unrooted l r) :: fs)) := entriesOf_unrooted ht
  have hmem : e ∈ entriesOf ((b, t) :: fs) := hpe.mem_iff.mpr mem_cons_self
  have hpages : (M.obj (m (e + 16))).pages = [] := by
    rw [hkept e hmem]
    exact S.pages _ (mem_map_of_mem hmem)
  refine ⟨m, _, hdel, releaseEntry_empty hpages, ?_⟩
  dsimp only
  rw [hkept e hmem]
  exact S.drop hE hpe (nodesOf_unrooted ht) hblocks hkept

end Entry

/-! ### The loops -/

theorem Standing.block {Ts : BTree ℕ} (hE : Lawful E v live) (S : Standing live M ((b, ⟨.nil, Ts, .nil⟩) :: fs)) :
    Torn E live M ((b, ⟨.nil, Ts, .nil⟩) :: fs) (freeNode E v b M) fs := by
  have hnodes : nodesOf ((b, ⟨.nil, Ts, .nil⟩) :: fs) = b :: nodesOf fs := rfl
  have hobjs : objectsOf M.mem ((b, ⟨.nil, Ts, .nil⟩) :: fs) = objectsOf M.mem fs := rfl
  have hblocks : ∀ x ∈ fs, Block live M x.1 x.2 := fun x hx => S.blocks x (mem_cons_of_mem _ hx)
  have hb : b ∈ live M.env := (S.blocks _ mem_cons_self).home.block
  obtain ⟨hbn, hnodup⟩ := nodup_cons.mp (hnodes ▸ S.apart)
  have hbo : b ∉ objectsOf M.mem fs := fun h => (S.inUse b h).2 mem_cons_self
  have hw := freeNode_spec hE v (hE.node hb) M
  have hout : ∀ p ∈ nodesOf fs, p ≠ b := fun p hp heq => hbn (heq ▸ hp)
  have hin : ∀ p ∈ nodesOf fs, p ∈ live M.env := fun p hp => S.node_inUse (mem_cons_of_mem _ hp)
  have hobj : objectsOf (freeNode E v b M).mem fs = objectsOf M.mem fs := map_congr_left fun x hx =>
    hw.mem x (hin x (entry_mem_nodesOf hx)) (hout x (entry_mem_nodesOf hx)) 16 (by decide)
  have hheld : held M.mem ((b, ⟨.nil, Ts, .nil⟩) :: fs) = insert b (held M.mem fs) := by
    ext p
    simp only [held, hnodes, hobjs, mem_cons, or_assoc, Set.mem_insert_iff, Set.mem_ofPred_eq]
  have hbheld : b ∉ held M.mem fs := by
    rintro (h | h)
    · exact hbn h
    · exact hbo h
  have hheld' : held (freeNode E v b M).mem fs = held M.mem fs := by rw [held, hobj, held]
  refine ⟨⟨fun x hx => ?_, hnodup, fun o ho => ?_, fun o ho => ?_, fun o ho => ?_⟩, fun x hx => ?_, ?_, ?_⟩
  · exact (hblocks x hx).within hw (hout _ (mem_nodesOf hx (.inl rfl))) fun s hs => hout s (mem_nodesOf hx (.inr hs))
  · rw [hobj] at ho
    obtain ⟨hin, hnot⟩ := S.inUse o ho
    exact ⟨hw.inUse o hin fun heq => hbo (heq ▸ ho), fun h => hnot (mem_cons_of_mem _ h)⟩
  · rw [hobj] at ho
    rw [freeNode_obj]
    exact S.pages o ho
  · rw [hobj] at ho ⊢
    rw [freeNode_obj]
    exact S.refs o ho
  · have hx' := mem_nodesOf hx (.inl rfl)
    exact hw.mem x.1 (hin x.1 hx') (hout x.1 hx') 16 (by decide)
  · rw [hheld, hheld']
    exact Set.subset_insert ..
  · rw [hheld, hheld', Set.insert_sdiff_eq_singleton hbheld]
    exact freeNode_returns hE v b M

section Untouched
variable {α : Type} {g : σ → α} (hfree : ∀ s u p, g (E.free s u p).2 = g s) (hunmap : ∀ s a x p, g (E.unmap s a x p).2 = g s)
include hfree

include hunmap

end Untouched

end

end Advos.Vmem
