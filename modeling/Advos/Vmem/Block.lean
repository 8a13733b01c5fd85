import Advos.Vmem.Btree

/-! The trees of a memory block (`memory.c`).

    A `virt_memory_block_t` holds the allocated entries of its address range in one tree, by start
    address, and the free intervals in two, by start address and by size:

        block ─▶ | start | end | next | entries | atree | stree |
        free  ─▶ | start | size | atree: left right data | stree: left right data |
        entry ─▶ | start | size | object | offset | flags | atree: left right data |

    The comparison functions take two structures, but `btree_add` and `btree_delete` pass the tree
    node as the second one: what is read as its start is the left link, as its size the right one. -/

namespace Advos.Vmem
open SearchTree Word List

/-! ### Comparisons and search conditions -/

/-- `virt_memory_comp_addr`. -/
def virtMemoryCompAddr (m : Mem) (a b : ℕ) : ℤ :=
  if m a = m b then 0 else if m a > m b then 1 else -1

/-- `virt_memory_comp_size`. -/
def virtMemoryCompSize (m : Mem) (a b : ℕ) : ℤ :=
  if m (a + 8) = m (b + 8) then 0 else if m (a + 8) > m (b + 8) then 1 else -1

/-- The condition to find the interval at `a` by an address in it. -/
def condFit (m : Mem) (addr a : ℕ) : ℤ :=
  if addr ≥ m a ∧ addr < add64 (m a) (m (a + 8)) then 0 else if addr < m a then -1 else 1

/-- `virt_memory_cond_fit`. -/
def virtMemoryCondFit (m : Mem) (addr a : ℕ) : ℤ := condFit m addr a

/-- `virt_memory_cond_fit_free`. -/
def virtMemoryCondFitFree (m : Mem) (addr a : ℕ) : ℤ := condFit m addr a

/-- `virt_memory_cond_fit_free_size`; the state is the field `ret`. -/
def virtMemoryCondFitFreeSize (m : Mem) (size a : ℕ) (ret : Option ℕ) : ℤ × Option ℕ :=
  if size > m (a + 8) then (1, ret) else (-1, some a)

/-- `virt_memory_cond_neigh_free`. -/
def virtMemoryCondNeighFree (m : Mem) (start fin a : ℕ) : ℤ :=
  if fin = m a ∨ start = add64 (m a) (m (a + 8)) then 0 else if start < m a then -1 else 1

/-- The start and the size of the structure `s` are set. -/
def interval (m : Mem) (s start size : ℕ) : Mem := set (set m s start) (s + 8) size

/-! ### Trees of a block -/

/-- `n->data`, where there is a node. -/
def nodeData (m : Mem) (n : ℕ) : Option ℕ := if n = 0 then none else some (m (n + 16))

/-- A search without a state. -/
def searchBy (cond : ℕ → ℤ) (m : Mem) (root : ℕ) : Except Stop (Option ℕ) := do
  let (n, _) ← btreeSearch (fun a (s : Unit) => (cond a, s)) fuel m root ()
  pure (nodeData m n)

/-- `_find_free_entry`. -/
def findFreeEntry (b addr : ℕ) (m : Mem) : Except Stop (Option ℕ) :=
  searchBy (virtMemoryCondFitFree m addr) m (m (b + 32))

/-- `_find_neighbor_free_entry`. -/
def findNeighborFreeEntry (b start fin : ℕ) (m : Mem) : Except Stop (Option ℕ) :=
  searchBy (virtMemoryCondNeighFree m start fin) m (m (b + 32))

/-- `_find_entry`. -/
def findEntry (b addr : ℕ) (m : Mem) : Except Stop (Option ℕ) :=
  searchBy (virtMemoryCondFit m addr) m (m (b + 24))

/-- `_search_fit_size`. -/
def searchFitSize (b sz : ℕ) (m : Mem) : Except Stop (Option ℕ) := do
  let (_, ret) ← btreeSearch (virtMemoryCondFitFreeSize m sz) fuel m (m (b + 40)) none
  pure ret

/-- `_entry_add`. -/
def entryAdd (b n : ℕ) (m : Mem) : Except Stop (ℤ × Mem) :=
  btreeAdd virtMemoryCompAddr false (n + 40) fuel (set m (n + 56) n) (b + 24)

/-- `_entry_delete`. -/
def entryDelete (b n : ℕ) (m : Mem) : Except Stop (Option ℕ × Mem) := do
  let (r, m) ← btreeDelete virtMemoryCompAddr (n + 40) fuel m (b + 24)
  pure (nodeData m r, m)

/-- `_free_add`. -/
def freeAdd (b n : ℕ) (m : Mem) : Except Stop (ℤ × Mem) := do
  let m := set (set m (n + 32) n) (n + 56) n
  let (ret, m) ← btreeAdd virtMemoryCompAddr false (n + 16) fuel m (b + 32)
  if ret < 0 then pure (-1, m)
  else
    let (ret, m) ← btreeAdd virtMemoryCompSize true (n + 40) fuel m (b + 40)
    if ret < 0 then
      let (p, m) ← btreeDelete virtMemoryCompAddr (n + 16) fuel m (b + 32)
      kassert (p ≠ 0)
      pure (-1, m)
    else pure (0, m)

/-- `_free_delete`. -/
def freeDelete (b n : ℕ) (m : Mem) : Except Stop (ℕ × Mem) := do
  let (fa, m) ← btreeDelete virtMemoryCompAddr (n + 16) fuel m (b + 32)
  let (fs, m) ← btreeDelete virtMemoryCompSize (n + 40) fuel m (b + 40)
  kassert (fa ≠ 0 ∧ fs ≠ 0)
  kassert (m (fa + 16) = m (fs + 16))
  pure (m (fa + 16), m)

/-! ### The trees in memory -/

/-- The trees of the block at `b`: free intervals by address and by size, and entries. The structures
    are 64 bytes each and do not overlap. -/
structure Trees (b : ℕ) (m : Mem) (Ta Ts Te : BTree ℕ) : Prop where
  atree : Rep 16 m (m (b + 32)) Ta
  stree : Rep 40 m (m (b + 40)) Ts
  entries : Rep 40 m (m (b + 24)) Te
  same : Ts.inorder.Perm Ta.inorder
  dataA : Data 16 m Ta
  dataS : Data 40 m Ts
  dataE : Data 40 m Te
  apart : (Ta.inorder ++ Te.inorder).Pairwise (Apart 64)
  block : ∀ s ∈ Ta.inorder ++ Te.inorder, Apart 64 s b
  below : ∀ s ∈ Ta.inorder ++ Te.inorder, 0 < s ∧ s < 2 ^ 64

/-- A structure that is in none of the trees yet. -/
structure Fresh (b : ℕ) (used : List ℕ) (n : ℕ) : Prop where
  apart : ∀ s ∈ used, Apart 64 n s
  block : Apart 64 n b
  below : 0 < n ∧ n < 2 ^ 64

variable {b n f a : ℕ} {m m' : Mem} {Ta Ts Te T T' : BTree ℕ}

theorem Apart.mono {d d' x y : ℕ} (h : Apart d x y) (hd : d' ≤ d) : Apart d' x y := by
  rcases h with h | h
  · exact .inl (by omega)
  · exact .inr (by omega)

theorem length_lt_fuel {l : List ℕ} (h : l.Nodup) (hb : ∀ s ∈ l, 0 < s ∧ s < 2 ^ 64) : l.length < fuel := by
  have hsub : l.toFinset ⊆ Finset.Ico 1 (2 ^ 64) := by
    intro s hs
    rw [mem_toFinset] at hs
    exact Finset.mem_Ico.mpr (hb s hs)
  have hcard := Finset.card_le_card hsub
  rw [toFinset_card_of_nodup h, Nat.card_Ico] at hcard
  rw [fuel]
  omega

/-- Structures of one tree of the block. -/
structure Placed (b : ℕ) (S : List ℕ) : Prop where
  apart : S.Pairwise (Apart 64)
  block : ∀ s ∈ S, Apart 64 s b
  below : ∀ s ∈ S, 0 < s ∧ s < 2 ^ 64

namespace Placed
variable {S : List ℕ} (h : Placed b S)
include h

theorem cons (hn : Fresh b S n) : Placed b (n :: S) := by
  refine ⟨pairwise_cons.mpr ⟨hn.apart, h.apart⟩, fun s hs => ?_, fun s hs => ?_⟩
  · rcases mem_cons.mp hs with rfl | hs
    · exact hn.block
    · exact h.block s hs
  · rcases mem_cons.mp hs with rfl | hs
    · exact hn.below
    · exact h.below s hs

theorem tail {S' : List ℕ} (hp : S.Perm (n :: S')) : Placed b S' :=
  ⟨((hp.pairwise_iff fun {_ _} => Apart.symm).mp h.apart).of_cons,
    fun s hs => h.block s (hp.mem_iff.mpr (mem_cons_of_mem _ hs)),
    fun s hs => h.below s (hp.mem_iff.mpr (mem_cons_of_mem _ hs))⟩

theorem perm {S' : List ℕ} (hp : S'.Perm S) : Placed b S' :=
  ⟨(hp.pairwise_iff fun {_ _} => Apart.symm).mpr h.apart, fun s hs => h.block s (hp.mem_iff.mp hs),
    fun s hs => h.below s (hp.mem_iff.mp hs)⟩

theorem same_or_apart {s x : ℕ} (hs : s ∈ S) (hx : x ∈ S) : s = x ∨ Apart 64 s x := by
  rcases eq_or_ne s x with heq | hne
  · exact .inl heq
  · exact .inr (h.apart.forall hs hx hne)

end Placed

/-- The tree `T` of structures of the block hangs below its pointer at `i`, by the nodes at `off`. -/
structure BlockTree (off b i : ℕ) (m : Mem) (T : BTree ℕ) : Prop where
  rep : Rep off m (m (b + i)) T
  data : Data off m T
  placed : Placed b T.inorder
  node : off + 24 ≤ 64
  pointer : i < 64

namespace BlockTree
variable {off i : ℕ} (h : BlockTree off b i m T)
include h

theorem length_lt : T.inorder.length < fuel :=
  length_lt_fuel (Spread.nodup h.placed.apart (by decide)) h.placed.below

/-- Pointers of the block and links of structures apart from it are different words. -/
theorem hangs : Hangs off m (b + i) T := by
  have hnode := h.node
  have hpointer := h.pointer
  refine ⟨h.rep, h.placed.apart.imp fun h => h.mono (by decide), fun s hs => ?_⟩
  rcases h.placed.block s hs with h | h <;> constructor <;> omega

theorem congr (hb : m' (b + i) = m (b + i))
    (hT : ∀ s ∈ T.inorder, ∀ j, off ≤ j → j < off + 24 → m' (s + j) = m (s + j)) : BlockTree off b i m' T where
  rep := by
    rw [hb]
    exact h.rep.congr fun s hs =>
      ⟨hT s hs off (by omega) (by omega), hT s hs (off + 8) (by omega) (by omega)⟩
  data s hs := (hT s hs (off + 16) (by omega) (by omega)).trans (h.data s hs)
  placed := h.placed
  node := h.node
  pointer := h.pointer

end BlockTree

namespace Trees

variable (H : Trees b m Ta Ts Te)
include H

theorem mem_stree {s : ℕ} : s ∈ Ts.inorder ↔ s ∈ Ta.inorder := H.same.mem_iff

theorem apartAE {s x : ℕ} (hs : s ∈ Ta.inorder) (hx : x ∈ Te.inorder) : Apart 64 s x :=
  (pairwise_append.mp H.apart).2.2 s hs x hx

theorem placedA : Placed b Ta.inorder :=
  ⟨(pairwise_append.mp H.apart).1, fun s hs => H.block s (mem_append_left _ hs),
    fun s hs => H.below s (mem_append_left _ hs)⟩

theorem placedE : Placed b Te.inorder :=
  ⟨(pairwise_append.mp H.apart).2.1, fun s hs => H.block s (mem_append_right _ hs),
    fun s hs => H.below s (mem_append_right _ hs)⟩

theorem treeA : BlockTree 16 b 32 m Ta := ⟨H.atree, H.dataA, H.placedA, by decide, by decide⟩

theorem treeS : BlockTree 40 b 40 m Ts := ⟨H.stree, H.dataS, H.placedA.perm H.same, by decide, by decide⟩

theorem treeE : BlockTree 40 b 24 m Te := ⟨H.entries, H.dataE, H.placedE, by decide, by decide⟩

theorem spreadA : Spread 64 Ta := H.placedA.apart

theorem spreadE : Spread 64 Te := H.placedE.apart

end Trees

theorem Trees.of_trees (hA : BlockTree 16 b 32 m Ta) (hS : BlockTree 40 b 40 m Ts) (hE : BlockTree 40 b 24 m Te)
    (hsame : Ts.inorder.Perm Ta.inorder) (hAE : ∀ s ∈ Ta.inorder, ∀ x ∈ Te.inorder, Apart 64 s x) :
    Trees b m Ta Ts Te where
  atree := hA.rep
  stree := hS.rep
  entries := hE.rep
  same := hsame
  dataA := hA.data
  dataS := hS.data
  dataE := hE.data
  apart := pairwise_append.mpr ⟨hA.placed.apart, hE.placed.apart, hAE⟩
  block s hs := (mem_append.mp hs).elim (hA.placed.block s) (hE.placed.block s)
  below s hs := (mem_append.mp hs).elim (hA.placed.below s) (hE.placed.below s)

/-- The trees stand on the words from 16 on of the free structures, on those from 40 on of the
    entries, and on three pointers of the block. -/
theorem Trees.congr (H : Trees b m Ta Ts Te)
    (hb : m' (b + 24) = m (b + 24) ∧ m' (b + 32) = m (b + 32) ∧ m' (b + 40) = m (b + 40))
    (hA : ∀ s ∈ Ta.inorder, ∀ i, 16 ≤ i → i < 64 → m' (s + i) = m (s + i))
    (hE : ∀ s ∈ Te.inorder, ∀ i, 40 ≤ i → i < 64 → m' (s + i) = m (s + i)) : Trees b m' Ta Ts Te :=
  .of_trees (H.treeA.congr hb.2.1 fun s hs j h1 h2 => hA s hs j h1 (by omega))
    (H.treeS.congr hb.2.2 fun s hs j h1 h2 => hA s (H.mem_stree.mp hs) j (by omega) h2)
    (H.treeE.congr hb.1 hE) H.same fun _ hs _ hx => H.apartAE hs hx

/-! ### What the operations write -/

/-- Only links at `off` of the structures in `S` and the pointer at `t` have changed. -/
def TreeFrame (off t : ℕ) (S : List ℕ) (m m' : Mem) : Prop :=
  ∀ a, a ≠ t → (∀ s ∈ S, a ≠ s + off ∧ a ≠ s + off + 8) → m' a = m a

/-- `_free_add` and `_free_delete` write the words from 16 on of free structures. -/
def FreeFrame (b : ℕ) (S : List ℕ) (m m' : Mem) : Prop :=
  ∀ a, a ≠ b + 32 → a ≠ b + 40 → (∀ s ∈ S, a < s + 16 ∨ s + 64 ≤ a) → m' a = m a

/-- `_entry_add` and `_entry_delete` write the words from 40 on of entries. -/
def EntryFrame (b : ℕ) (S : List ℕ) (m m' : Mem) : Prop :=
  ∀ a, a ≠ b + 24 → (∀ s ∈ S, a < s + 40 ∨ s + 64 ≤ a) → m' a = m a

section Frames
variable {off t i : ℕ} {S : List ℕ} {comp : Mem → ℕ → ℕ → ℤ} {cmp : ℕ → ℤ}

theorem Frame.treeFrame {P : ℕ → Prop} (h : Frame off t T P m m') (hT : ∀ s ∈ T.inorder, s ∈ S)
    (hP : ∀ a, P a → ∃ s ∈ S, a = s + off ∨ a = s + off + 8) : TreeFrame off t S m m' := by
  intro a hat hS
  refine h a hat (fun s hs => hS s (hT s hs)) fun ha => ?_
  obtain ⟨s, hs, ha⟩ := hP a ha
  rcases ha with ha | ha
  · exact (hS s hs).1 ha
  · exact (hS s hs).2 ha

theorem TreeFrame.word {s j : ℕ} (h : TreeFrame off (b + i) S m m') (hS : Placed b S) (hoff : off + 24 ≤ 64)
    (hi : i < 64) (hs : s ∈ S) (hj : j < 64) (h1 : j ≠ off) (h2 : j ≠ off + 8) : m' (s + j) = m (s + j) := by
  refine h _ ?_ fun x hx => ?_
  · rcases hS.block s hs with h | h <;> omega
  · rcases hS.same_or_apart hs hx with rfl | h | h <;> omega

/-- A tree at 16 is not touched by writes to the links at 40, and the other way round. -/
theorem BlockTree.of_frame {off' i' : ℕ} (h : BlockTree off b i m T) (hfr : TreeFrame off' (b + i') S m m')
    (hS : Placed b S) (hT : ∀ s ∈ T.inorder, s ∈ S) (ho : off + 24 ≤ off' ∨ off' + 24 ≤ off)
    (hoff' : off' + 24 ≤ 64) (hi' : i' < 64) (hne : i ≠ i') : BlockTree off b i m' T := by
  have hnode := h.node
  have hpointer := h.pointer
  refine h.congr (hfr _ (by omega) fun s hs => ?_) fun s hs j h1 h2 => ?_
  · rcases hS.block s hs with h | h <;> omega
  · exact hfr.word hS hoff' hi' (hT s hs) (by omega) (by omega) (by omega)

theorem BlockTree.add (h : BlockTree off b i m T) (dup : Bool) (hn : Fresh b T.inorder n)
    (hd : m (n + off + 16) = n) (hcmp : ∀ y ∈ T.inorder, comp m n (y + off) = cmp y) :
    (T.add cmp dup n = none ∧ btreeAdd comp dup (n + off) fuel m (b + i) = .ok (-1, m)) ∨
      ∃ T' m', T.add cmp dup n = some T' ∧ btreeAdd comp dup (n + off) fuel m (b + i) = .ok (0, m') ∧
        BlockTree off b i m' T' ∧ TreeFrame off (b + i) (n :: T.inorder) m m' := by
  have hnode := h.node
  have hpointer := h.pointer
  have hlink : ¬LinkOf off n (b + i) := by
    simp only [LinkOf, not_or]
    rcases hn.block with h | h <;> omega
  have hrun := btreeAdd_rep comp dup h.hangs hn.below.1.ne' (fun x hx => (hn.apart x hx).mono (by decide)) hlink
    h.length_lt
  rw [hd, BTree.add_congr hcmp] at hrun
  cases hadd : T.add cmp dup n with
  | none =>
    rw [hadd] at hrun
    exact .inl ⟨rfl, hrun⟩
  | some T' =>
    rw [hadd] at hrun
    obtain ⟨m', hrun, hrep, hframe⟩ := hrun
    have hperm := BTree.perm_add hadd
    have hS := h.placed.cons hn
    have hfr : TreeFrame off (b + i) (n :: T.inorder) m m' :=
      hframe.treeFrame (fun s hs => mem_cons_of_mem _ hs) fun a ha => ⟨n, mem_cons_self, ha⟩
    refine .inr ⟨T', m', rfl, hrun, ⟨hrep, fun s hs => ?_, hS.perm hperm, hnode, hpointer⟩, hfr⟩
    have hs := hperm.mem_iff.mp hs
    have hword : m' (s + (off + 16)) = m (s + (off + 16)) :=
      hfr.word hS hnode hpointer hs (by omega) (by omega) (by omega)
    refine hword.trans ?_
    rcases mem_cons.mp hs with rfl | hs
    · exact hd
    · exact h.data s hs

theorem BlockTree.delete (h : BlockTree off b i m T)
    (hcmp : ∀ y ∈ T.inorder, comp m (m (n + off + 16)) (y + off) = cmp y) :
    (T.delete cmp n = none ∧ btreeDelete comp (n + off) fuel m (b + i) = .ok (0, m)) ∨
      ∃ T' m', T.delete cmp n = some T' ∧
        btreeDelete comp (n + off) fuel m (b + i) = .ok (n + off, m') ∧
        BlockTree off b i m' T' ∧ TreeFrame off (b + i) T.inorder m m' := by
  have hnode := h.node
  have hrun := btreeDelete_rep comp n h.hangs h.length_lt h.length_lt
  rw [BTree.delete_congr hcmp] at hrun
  cases hdel : T.delete cmp n with
  | none =>
    rw [hdel] at hrun
    exact .inl ⟨rfl, hrun⟩
  | some T' =>
    rw [hdel] at hrun
    obtain ⟨m', hrun, hrep, hframe⟩ := hrun
    have hperm := BTree.perm_delete hdel
    have hfr : TreeFrame off (b + i) T.inorder m m' := hframe.treeFrame (fun s hs => hs) fun a ha => ha.elim
    refine .inr ⟨T', m', rfl, hrun, ⟨hrep, fun s hs => ?_, h.placed.tail hperm, hnode, h.pointer⟩, hfr⟩
    have hs := hperm.mem_iff.mpr (mem_cons_of_mem _ hs)
    have hword : m' (s + (off + 16)) = m (s + (off + 16)) :=
      hfr.word h.placed hnode h.pointer hs (by omega) (by omega) (by omega)
    exact hword.trans (h.data s hs)

theorem Trees.withEntries {Te' : BTree ℕ} (H : Trees b m Ta Ts Te) (hfr : EntryFrame b S m m') (hS : Placed b S)
    (hSa : ∀ s ∈ S, ∀ x ∈ Ta.inorder, Apart 64 s x) (hsub : ∀ s ∈ Te'.inorder, s ∈ S)
    (hE : BlockTree 40 b 24 m' Te') : Trees b m' Ta Ts Te' := by
  have hA : ∀ x ∈ Ta.inorder, ∀ i, i < 64 → m' (x + i) = m (x + i) := by
    intro x hx i hi
    refine hfr _ ?_ fun s hs => ?_
    · rcases H.placedA.block x hx with h | h <;> omega
    · rcases hSa s hs x hx with h | h <;> omega
  have hB : ∀ i, 24 < i → i < 64 → m' (b + i) = m (b + i) := by
    intro i h1 h2
    refine hfr _ (by omega) fun s hs => ?_
    rcases hS.block s hs with h | h <;> omega
  exact .of_trees (H.treeA.congr (hB 32 (by decide) (by decide)) fun s hs j _ h => hA s hs j (by omega))
    (H.treeS.congr (hB 40 (by decide) (by decide)) fun s hs j _ h => hA s (H.mem_stree.mp hs) j h) hE H.same
    fun x hx s hs => (hSa s (hsub s hs) x hx).symm

theorem Trees.withFrees {Ta' Ts' : BTree ℕ} (H : Trees b m Ta Ts Te) (hfr : FreeFrame b S m m') (hS : Placed b S)
    (hSe : ∀ s ∈ S, ∀ x ∈ Te.inorder, Apart 64 s x) (hsub : ∀ s ∈ Ta'.inorder, s ∈ S)
    (hA : BlockTree 16 b 32 m' Ta') (hS' : BlockTree 40 b 40 m' Ts') (hsame : Ts'.inorder.Perm Ta'.inorder) :
    Trees b m' Ta' Ts' Te := by
  refine .of_trees hA hS' (H.treeE.congr ?_ fun x hx j _ hj => ?_) hsame fun s hs x hx => hSe s (hsub s hs) x hx
  · refine hfr _ (by omega) (by omega) fun s hs => ?_
    rcases hS.block s hs with h | h <;> omega
  · refine hfr _ ?_ ?_ fun s hs => ?_
    · rcases H.placedE.block x hx with h | h <;> omega
    · rcases H.placedE.block x hx with h | h <;> omega
    · rcases hSe s hs x hx with h | h <;> omega

end Frames

end Advos.Vmem
