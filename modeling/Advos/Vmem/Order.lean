import Advos.Schemes.Run
import Advos.Vmem.BlockOps

/-! Whether the trees of a block are search trees.

    `btree_add` and `btree_delete` compare the new structure with the links of the nodes they pass,
    and not with the structures of these nodes. A block with two free intervals is enough to go wrong:

        add start 0x2000, then start 0x1000        root, start 0x2000
                                                        └─ right: start 0x1000

    since 0x1000 is compared with the left link, NULL. The lower interval is then not found by its
    address. In a run where each comparison on the way down comes out as if it had been made with the
    structure of the node, the trees are ordered and every search and deletion finds what is there. -/

namespace Advos.Vmem
open SearchTree List

/-- The memory of a block, and the structures that are in its trees by the calls made so far. -/
structure Sys where
  mem : Mem
  frees : List ℕ
  entries : List ℕ

inductive Op
  | addFree (f start size : ℕ)
  | delFree (f : ℕ)
  | addEntry (e start size : ℕ)
  | delEntry (e : ℕ)

/-- The call and what it leaves. -/
def Op.run (b : ℕ) (st : Sys) : Op → Except Stop Sys
  | .addFree f start size => do
    let (r, m) ← freeAdd b f (interval st.mem f start size)
    pure ⟨m, if r = 0 then f :: st.frees else st.frees, st.entries⟩
  | .delFree f => do
    let (_, m) ← freeDelete b f st.mem
    pure ⟨m, st.frees.erase f, st.entries⟩
  | .addEntry e start size => do
    let (r, m) ← entryAdd b e (interval st.mem e start size)
    pure ⟨m, st.frees, if r = 0 then e :: st.entries else st.entries⟩
  | .delEntry e => do
    let (r, m) ← entryDelete b e st.mem
    pure ⟨m, st.frees, if r = some e then st.entries.erase e else st.entries⟩

/-- The interval from `start` on starts elsewhere than those of `l` and does not overlap them. -/
def Clear (m : Mem) (l : List ℕ) (start size : ℕ) : Prop :=
  ∀ s ∈ l, start ≠ m s ∧ (start + size ≤ m s ∨ m s + m (s + 8) ≤ start)

/-- A new structure with a new interval is added, or a present one is deleted. -/
def Op.Valid (b : ℕ) (st : Sys) : Op → Prop
  | .addFree f start size =>
    Fresh b (st.frees ++ st.entries) f ∧ start < 2 ^ 64 ∧ size < 2 ^ 64 ∧ Clear st.mem st.frees start size
  | .delFree f => f ∈ st.frees
  | .addEntry e start size =>
    Fresh b (st.frees ++ st.entries) e ∧ start < 2 ^ 64 ∧ size < 2 ^ 64 ∧
      Clear st.mem st.entries start size
  | .delEntry e => e ∈ st.entries

/-- On the way to the node of `n`, at `off`, the comparison gives for each node what it gives for the
    structure of the node. -/
def Agree (comp : Mem → ℕ → ℕ → ℤ) (off t : ℕ) (m : Mem) (n : ℕ) : Prop :=
  ∀ y ∈ passed comp n (n + off) fuel m t, comp m n y = comp m n (m (y + 16))

instance (comp : Mem → ℕ → ℕ → ℤ) (off t : ℕ) (m : Mem) (n : ℕ) : Decidable (Agree comp off t m n) :=
  inferInstanceAs (Decidable (∀ y ∈ passed comp n (n + off) fuel m t, _))

/-- The condition on a call: its comparisons agree, and a new interval ends below `2 ^ 64`. -/
def Op.Faithful (b : ℕ) (st : Sys) : Op → Prop
  | .addFree f start size =>
    start + size < 2 ^ 64 ∧
      Agree virtMemoryCompAddr 16 (b + 32) (interval st.mem f start size) f ∧
      Agree virtMemoryCompSize 40 (b + 40) (interval st.mem f start size) f
  | .delFree f =>
    Agree virtMemoryCompAddr 16 (b + 32) st.mem f ∧ Agree virtMemoryCompSize 40 (b + 40) st.mem f
  | .addEntry e start size =>
    start + size < 2 ^ 64 ∧ Agree virtMemoryCompAddr 40 (b + 24) (interval st.mem e start size) e
  | .delEntry e => Agree virtMemoryCompAddr 40 (b + 24) st.mem e

/-- One call that returns; `ok` says which calls are made. -/
def Step (b : ℕ) (ok : Sys → Op → Prop) (st st' : Sys) : Prop :=
  ∃ op : Op, op.Valid b st ∧ ok st op ∧ op.run b st = .ok st'

/-- A block without entries and free intervals. -/
def NewBlock (b : ℕ) (m : Mem) : Prop := m (b + 24) = 0 ∧ m (b + 32) = 0 ∧ m (b + 40) = 0

/-! ### The comparisons -/

variable {b n : ℕ} {m m' : Mem}

theorem compAddr_pos {x y : ℕ} : virtMemoryCompAddr m x y > 0 ↔ m y < m x := by
  rw [virtMemoryCompAddr]
  split
  · omega
  split <;> omega

theorem compAddr_eq_zero {x y : ℕ} : virtMemoryCompAddr m x y = 0 ↔ m x = m y := by
  rw [virtMemoryCompAddr]
  split
  · omega
  split <;> omega

theorem compSize_pos {x y : ℕ} : virtMemoryCompSize m x y > 0 ↔ m (y + 8) < m (x + 8) := by
  rw [virtMemoryCompSize]
  split
  · omega
  split <;> omega

/-- Agreement on the nodes passed is agreement with the key on the path in the tree. -/
theorem Agree.path {comp : Mem → ℕ → ℕ → ℤ} {off i : ℕ} {T : BTree ℕ} (h : Agree comp off (b + i) m n)
    (hT : BlockTree off b i m T) :
    ∀ y ∈ T.path (fun y => comp m n (y + off)) n, comp m n (y + off) = comp m n y := by
  intro y hy
  have hmem : y + off ∈ passed comp n (n + off) fuel m (b + i) := by
    rw [passed_rep hT.rep hT.length_lt]
    exact mem_map_of_mem hy
  rw [h _ hmem, hT.data y (BTree.mem_of_mem_path hy)]

/-! ### What the calls keep -/

/-- The intervals of `l`: they start at different addresses, do not overlap and do not wrap. -/
structure Intervals (m : Mem) (l : List ℕ) : Prop where
  apart : l.Pairwise fun s x => m s ≠ m x ∧ (m s + m (s + 8) ≤ m x ∨ m x + m (x + 8) ≤ m s)
  below : ∀ s ∈ l, m s + m (s + 8) < 2 ^ 64

/-- The intervals of `l` are as they were. -/
def SameKeys (l : List ℕ) (m m' : Mem) : Prop := ∀ s ∈ l, m' s = m s ∧ m' (s + 8) = m (s + 8)

variable {l : List ℕ}

theorem Intervals.congr (h : Intervals m l) (heq : SameKeys l m m') : Intervals m' l := by
  refine ⟨?_, fun s hs => ?_⟩
  · refine h.apart.imp_of_mem fun {s x} hs hx hsx => ?_
    rw [(heq s hs).1, (heq s hs).2, (heq x hx).1, (heq x hx).2]
    exact hsx
  · rw [(heq s hs).1, (heq s hs).2]
    exact h.below s hs

theorem Intervals.cons (h : Intervals m l) (hc : Clear m l (m n) (m (n + 8))) (hb : m n + m (n + 8) < 2 ^ 64) :
    Intervals m (n :: l) := by
  refine ⟨pairwise_cons.mpr ⟨hc, h.apart⟩, fun s hs => ?_⟩
  rcases mem_cons.mp hs with rfl | hs
  · exact hb
  · exact h.below s hs

theorem Intervals.perm {l l' : List ℕ} (h : Intervals m l) (hp : l'.Perm l) : Intervals m l' := by
  refine ⟨(hp.pairwise_iff fun {s x} hsx => ⟨hsx.1.symm, hsx.2.symm⟩).mpr h.apart, fun s hs => ?_⟩
  exact h.below s (hp.mem_iff.mp hs)

theorem Intervals.tail (h : Intervals m (n :: l)) : Intervals m l :=
  ⟨(pairwise_cons.mp h.apart).2, fun s hs => h.below s (mem_cons_of_mem _ hs)⟩

/-- A tree by start addresses, of intervals that do not overlap. -/
structure Sorted (m : Mem) (T : BTree ℕ) : Prop where
  order : T.Ordered fun s => m s
  intervals : Intervals m T.inorder

namespace Sorted
variable {off : ℕ} {T : BTree ℕ} (h : Sorted m T)
include h

theorem congr (heq : SameKeys T.inorder m m') : Sorted m' T :=
  ⟨h.order.congr fun s hs => (heq s hs).1, h.intervals.congr heq⟩

/-- With comparisons that agree on the way down, an interval that is clear of the others gets in. -/
theorem add (hn : n ∉ T.inorder) (hclear : Clear m T.inorder (m n) (m (n + 8))) (hb : m n + m (n + 8) < 2 ^ 64)
    (hp : ∀ y ∈ T.path (cmpAddr off m n) n, cmpAddr off m n y = virtMemoryCompAddr m n y) :
    ∃ T', T.add (cmpAddr off m n) false n = some T' ∧ T'.inorder.Perm (n :: T.inorder) ∧ Sorted m T' := by
  obtain ⟨T', hT'⟩ : ∃ T', T.add (cmpAddr off m n) false n = some T' := by
    refine BTree.exists_add hn (.inr fun y hy h0 => ?_)
    exact (hclear y (BTree.mem_of_mem_path hy)).1 (compAddr_eq_zero.mp ((hp y hy).symm.trans h0))
  have hperm := BTree.perm_add hT'
  refine ⟨T', hT', hperm, h.order.add hn (fun y hy => ?_) hT', (h.intervals.cons hclear hb).perm hperm⟩
  rw [hp y hy, compAddr_pos]

theorem delete (hn : n ∈ T.inorder)
    (hp : ∀ y ∈ T.path (cmpAddr off m n) n, cmpAddr off m n y = virtMemoryCompAddr m n y) :
    ∃ T', T.delete (cmpAddr off m n) n = some T' ∧ T.inorder.Perm (n :: T'.inorder) ∧ Sorted m T' := by
  obtain ⟨T', hT'⟩ := h.order.exists_delete hn fun y hy => by rw [hp y hy, compAddr_pos]
  have hperm := BTree.perm_delete hT'
  exact ⟨T', hT', hperm, h.order.delete hT', (h.intervals.perm hperm.symm).tail⟩

end Sorted

/-- The trees are ordered and hold the structures that were put there. -/
structure Inv (b : ℕ) (st : Sys) (Ta Ts Te : BTree ℕ) : Prop where
  trees : Trees b st.mem Ta Ts Te
  frees : Ta.inorder.Perm st.frees
  entries : Te.inorder.Perm st.entries
  orderA : Ta.Ordered fun s => st.mem s
  orderS : Ts.Ordered fun s => st.mem (s + 8)
  orderE : Te.Ordered fun s => st.mem s
  intervalsF : Intervals st.mem Ta.inorder
  intervalsE : Intervals st.mem Te.inorder

variable {S l : List ℕ}

/-- Writes to a block and to the words from 16 on of the structures in `S` keep the intervals. -/
theorem sameKeys_of_frame (h : ∀ a, (a < b ∨ b + 64 ≤ a) → (∀ s ∈ S, a < s + 16 ∨ s + 64 ≤ a) → m' a = m a)
    (hb : ∀ s ∈ l, Apart 64 s b) (hS : ∀ s ∈ l, ∀ x ∈ S, s = x ∨ Apart 64 s x) : SameKeys l m m' := by
  intro s hs
  have hkeep : ∀ j, j < 16 → m' (s + j) = m (s + j) := by
    refine fun j hj => h _ ?_ fun x hx => ?_
    · rcases hb s hs with h | h <;> omega
    · rcases hS s hs x hx with rfl | h | h <;> omega
  exact ⟨hkeep 0 (by decide), hkeep 8 (by decide)⟩

theorem FreeFrame.sameKeys (h : FreeFrame b S m m') (hb : ∀ s ∈ l, Apart 64 s b)
    (hS : ∀ s ∈ l, ∀ x ∈ S, s = x ∨ Apart 64 s x) : SameKeys l m m' :=
  sameKeys_of_frame (fun a ha => h a (by omega) (by omega)) hb hS

theorem EntryFrame.sameKeys (h : EntryFrame b S m m') (hb : ∀ s ∈ l, Apart 64 s b)
    (hS : ∀ s ∈ l, ∀ x ∈ S, s = x ∨ Apart 64 s x) : SameKeys l m m' :=
  sameKeys_of_frame (fun a ha hout => h a (by omega) fun s hs => (hout s hs).imp_left (by omega)) hb hS

theorem interval_sameKeys {start size : ℕ} (h : ∀ s ∈ l, Apart 64 n s) :
    SameKeys l m (interval m n start size) := by
  intro s hs
  rcases h s hs with h | h <;>
    exact ⟨interval_of_ne (by omega) (by omega), interval_of_ne (by omega) (by omega)⟩

theorem Clear.interval {l l' : List ℕ} {start size : ℕ} (h : Clear m l start size) (hl : l'.Perm l)
    (hn : ∀ s ∈ l', Apart 64 n s) : Clear (interval m n start size) l' (interval m n start size n)
      (interval m n start size (n + 8)) := by
  intro s hs
  rw [interval_start, interval_size, (interval_sameKeys hn s hs).1, (interval_sameKeys hn s hs).2]
  exact h s (hl.mem_iff.mp hs)

/-! ### One call -/

/-- The call returns, and finds what it is to delete. -/
def Op.Completes (b : ℕ) (st : Sys) : Op → Prop
  | .addFree f start size => ∃ m', freeAdd b f (interval st.mem f start size) = .ok (0, m')
  | .delFree f => ∃ m', freeDelete b f st.mem = .ok (f, m')
  | .addEntry e start size => ∃ m', entryAdd b e (interval st.mem e start size) = .ok (0, m')
  | .delEntry e => ∃ m', entryDelete b e st.mem = .ok (some e, m')

namespace Inv
variable {st : Sys} {Ta Ts Te : BTree ℕ} {start size : ℕ} (I : Inv b st Ta Ts Te)
include I

theorem fresh (h : Fresh b (st.frees ++ st.entries) n) : Fresh b (Ta.inorder ++ Te.inorder) n := by
  refine h.subset fun s hs => ?_
  rcases mem_append.mp hs with hs | hs
  · exact mem_append_left _ (I.frees.mem_iff.mp hs)
  · exact mem_append_right _ (I.entries.mem_iff.mp hs)

theorem sortedA : Sorted st.mem Ta := ⟨I.orderA, I.intervalsF⟩

theorem sortedE : Sorted st.mem Te := ⟨I.orderE, I.intervalsE⟩

theorem withFrees {m' : Mem} {Ta' Ts' : BTree ℕ} {fs : List ℕ} (H : Trees b m' Ta' Ts' Te)
    (hfs : Ta'.inorder.Perm fs) (hA : Sorted m' Ta') (hS : Ts'.Ordered fun s => m' (s + 8))
    (hE : SameKeys Te.inorder st.mem m') : Inv b ⟨m', fs, st.entries⟩ Ta' Ts' Te :=
  ⟨H, hfs, I.entries, hA.order, hS, (I.sortedE.congr hE).order, hA.intervals, I.intervalsE.congr hE⟩

theorem withEntries {m' : Mem} {Te' : BTree ℕ} {es : List ℕ} (H : Trees b m' Ta Ts Te')
    (hes : Te'.inorder.Perm es) (hE : Sorted m' Te') (hA : SameKeys Ta.inorder st.mem m') :
    Inv b ⟨m', st.frees, es⟩ Ta Ts Te' :=
  ⟨H, I.frees, hes, (I.sortedA.congr hA).order,
    I.orderS.congr fun s hs => (hA s (I.trees.mem_stree.mp hs)).2, hE.order, I.intervalsF.congr hA, hE.intervals⟩

theorem interval (hfresh : Fresh b (Ta.inorder ++ Te.inorder) n) :
    Inv b ⟨Vmem.interval st.mem n start size, st.frees, st.entries⟩ Ta Ts Te := by
  have hkA : SameKeys Ta.inorder st.mem (Vmem.interval st.mem n start size) :=
    interval_sameKeys fun s hs => hfresh.apart s (mem_append_left _ hs)
  have hkE : SameKeys Te.inorder st.mem (Vmem.interval st.mem n start size) :=
    interval_sameKeys fun s hs => hfresh.apart s (mem_append_right _ hs)
  exact I.withFrees (I.trees.setInterval start size hfresh) I.frees (I.sortedA.congr hkA)
    (I.orderS.congr fun s hs => (hkA s (I.trees.mem_stree.mp hs)).2) hkE

theorem addFree (hv : Op.Valid b st (.addFree n start size))
    (hok : Op.Faithful b st (.addFree n start size)) :
    ∃ m' Ta' Ts', freeAdd b n (Vmem.interval st.mem n start size) = .ok (0, m') ∧
      Inv b ⟨m', n :: st.frees, st.entries⟩ Ta' Ts' Te := by
  obtain ⟨hfresh, -, -, hclear⟩ := hv
  obtain ⟨hbelow, hagA, hagS⟩ := hok
  have hfresh := I.fresh hfresh
  have hnA : ∀ s ∈ Ta.inorder, Apart 64 n s := fun s hs => hfresh.apart s (mem_append_left _ hs)
  have hnot : n ∉ Ta.inorder := fun h => by rcases hnA n h with h | h <;> omega
  have hS := I.trees.placedA.cons (hfresh.subset fun s hs => mem_append_left _ hs)
  have J : Inv b ⟨Vmem.interval st.mem n start size, st.frees, st.entries⟩ Ta Ts Te := I.interval hfresh
  have H := J.trees
  -- on the way down, the comparisons are those of the starts and of the sizes
  obtain ⟨Ta', hTa, hperm, hsorted⟩ := J.sortedA.add hnot (hclear.interval I.frees hnA)
    (by simpa only [interval_start, interval_size] using hbelow) (hagA.path H.treeA)
  rcases freeAdd_spec H hfresh with ⟨hnone, -⟩ | ⟨Ta0, Ts', m', hTa0, hTs, hrun, H', hframe⟩
  · rw [hTa] at hnone
    cases hnone
  obtain rfl : Ta' = Ta0 := Option.some.inj (hTa.symm.trans hTa0)
  have hk : SameKeys (n :: Ta.inorder) (Vmem.interval st.mem n start size) m' :=
    hframe.sameKeys hS.block fun s hs x hx => hS.same_or_apart hs hx
  refine ⟨m', Ta', Ts', hrun, J.withFrees H' (hperm.trans (I.frees.cons n))
    (hsorted.congr fun s hs => hk s (hperm.mem_iff.mp hs)) ?_
    (hframe.sameKeys H.placedE.block fun s hs x hx => .inr ?_)⟩
  · have horder : Ts'.Ordered fun s => Vmem.interval st.mem n start size (s + 8) := by
      refine J.orderS.add (fun h => hnot (H.mem_stree.mp h)) (fun y hy => ?_) hTs
      rw [← compSize_pos, ← hagS.path H.treeS y hy]
      rfl
    exact horder.congr fun s hs => (hk s (hperm.mem_iff.mp (H'.mem_stree.mp hs))).2
  · rcases mem_cons.mp hx with rfl | hx
    · exact (hfresh.apart s (mem_append_right _ hs)).symm
    · exact (H.apartAE hx hs).symm

theorem delFree (hv : n ∈ st.frees) (hok : Op.Faithful b st (.delFree n)) :
    ∃ m' Ta' Ts', freeDelete b n st.mem = .ok (n, m') ∧
      Inv b ⟨m', st.frees.erase n, st.entries⟩ Ta' Ts' Te := by
  obtain ⟨hagA, hagS⟩ := hok
  have H := I.trees
  have hn : n ∈ Ta.inorder := I.frees.mem_iff.mpr hv
  obtain ⟨Ta', hTa, hperm, hsorted⟩ := I.sortedA.delete hn (hagA.path H.treeA)
  obtain ⟨Ts0, hTs0⟩ : ∃ Ts', Ts.delete (cmpSize 40 st.mem n) n = some Ts' := by
    refine I.orderS.exists_delete (H.mem_stree.mpr hn) fun y hy => ?_
    rw [← compSize_pos, ← hagS.path H.treeS y hy]
    rfl
  rcases freeDelete_spec H hn with ⟨Ta0, Ts', m', hTa0, hTs, hrun, H', hframe⟩ | ⟨hnone, -⟩
  swap
  · rcases hnone with hnone | hnone
    · rw [hTa] at hnone
      cases hnone
    · rw [hTs0] at hnone
      cases hnone
  obtain rfl : Ta' = Ta0 := Option.some.inj (hTa.symm.trans hTa0)
  have hk : SameKeys Ta'.inorder st.mem m' := fun s hs =>
    hframe.sameKeys H.placedA.block (fun s hs x hx => H.placedA.same_or_apart hs hx) s
      (hperm.mem_iff.mpr (mem_cons_of_mem _ hs))
  exact ⟨m', Ta', Ts', hrun, I.withFrees H'
    ((perm_cons n).mp ((hperm.symm.trans I.frees).trans (perm_cons_erase hv))) (hsorted.congr hk)
    ((I.orderS.delete hTs).congr fun s hs => (hk s (H'.mem_stree.mp hs)).2)
    (hframe.sameKeys H.placedE.block fun s hs x hx => .inr (H.apartAE hx hs).symm)⟩

theorem addEntry (hv : Op.Valid b st (.addEntry n start size))
    (hok : Op.Faithful b st (.addEntry n start size)) :
    ∃ m' Te', entryAdd b n (Vmem.interval st.mem n start size) = .ok (0, m') ∧
      Inv b ⟨m', st.frees, n :: st.entries⟩ Ta Ts Te' := by
  obtain ⟨hfresh, -, -, hclear⟩ := hv
  obtain ⟨hbelow, hag⟩ := hok
  have hfresh := I.fresh hfresh
  have hnE : ∀ s ∈ Te.inorder, Apart 64 n s := fun s hs => hfresh.apart s (mem_append_right _ hs)
  have hnot : n ∉ Te.inorder := fun h => by rcases hnE n h with h | h <;> omega
  have hS := I.trees.placedE.cons (hfresh.subset fun s hs => mem_append_right _ hs)
  have J : Inv b ⟨Vmem.interval st.mem n start size, st.frees, st.entries⟩ Ta Ts Te := I.interval hfresh
  have H := J.trees
  obtain ⟨Te', hTe, hperm, hsorted⟩ := J.sortedE.add hnot (hclear.interval I.entries hnE)
    (by simpa only [interval_start, interval_size] using hbelow) (hag.path H.treeE)
  obtain ⟨r, m', hrun, hframe, hr⟩ := entryAdd_spec H hfresh
  rcases hr with ⟨rfl, Te0, hTe0, H'⟩ | ⟨-, hnone, -⟩
  swap
  · rw [hTe] at hnone
    cases hnone
  obtain rfl : Te' = Te0 := Option.some.inj (hTe.symm.trans hTe0)
  have hk : SameKeys (n :: Te.inorder) (Vmem.interval st.mem n start size) m' :=
    hframe.sameKeys hS.block fun s hs x hx => hS.same_or_apart hs hx
  refine ⟨m', Te', hrun, J.withEntries H' (hperm.trans (I.entries.cons n))
    (hsorted.congr fun s hs => hk s (hperm.mem_iff.mp hs))
    (hframe.sameKeys H.placedA.block fun s hs x hx => .inr ?_)⟩
  rcases mem_cons.mp hx with rfl | hx
  · exact (hfresh.apart s (mem_append_left _ hs)).symm
  · exact H.apartAE hs hx

theorem delEntry (hv : n ∈ st.entries) (hok : Op.Faithful b st (.delEntry n)) :
    ∃ m' Te', entryDelete b n st.mem = .ok (some n, m') ∧
      Inv b ⟨m', st.frees, st.entries.erase n⟩ Ta Ts Te' := by
  have H := I.trees
  have hn : n ∈ Te.inorder := I.entries.mem_iff.mpr hv
  obtain ⟨Te', hTe, hperm, hsorted⟩ := I.sortedE.delete hn (Agree.path hok H.treeE)
  rcases entryDelete_spec H hn with ⟨hnone, -⟩ | ⟨Te0, m', hTe0, hrun, H', hframe⟩
  · rw [hTe] at hnone
    cases hnone
  obtain rfl : Te' = Te0 := Option.some.inj (hTe.symm.trans hTe0)
  have hk : SameKeys Te.inorder st.mem m' :=
    hframe.sameKeys H.placedE.block fun s hs x hx => H.placedE.same_or_apart hs hx
  exact ⟨m', Te', hrun, I.withEntries H'
    ((perm_cons n).mp ((hperm.symm.trans I.entries).trans (perm_cons_erase hv)))
    (hsorted.congr fun s hs => hk s (hperm.mem_iff.mpr (mem_cons_of_mem _ hs)))
    (hframe.sameKeys H.placedA.block fun s hs x hx => .inr (H.apartAE hs hx))⟩

end Inv

/-- CONSERVED: a valid and faithful call returns, does what it is for, and keeps the order. -/
theorem Inv.step {st : Sys} {Ta Ts Te : BTree ℕ} (I : Inv b st Ta Ts Te) {op : Op} (hv : op.Valid b st)
    (hok : op.Faithful b st) : op.Completes b st ∧ ∃ st' Ta' Ts' Te', op.run b st = .ok st' ∧
      Inv b st' Ta' Ts' Te' := by
  cases op with
  | addFree f start size =>
    obtain ⟨m', Ta', Ts', hrun, I'⟩ := I.addFree hv hok
    refine ⟨⟨m', hrun⟩, _, Ta', Ts', Te, ?_, I'⟩
    rw [Op.run, hrun]
    rfl
  | delFree f =>
    obtain ⟨m', Ta', Ts', hrun, I'⟩ := I.delFree hv hok
    refine ⟨⟨m', hrun⟩, _, Ta', Ts', Te, ?_, I'⟩
    rw [Op.run, hrun]
    rfl
  | addEntry e start size =>
    obtain ⟨m', Te', hrun, I'⟩ := I.addEntry hv hok
    refine ⟨⟨m', hrun⟩, _, Ta, Ts, Te', ?_, I'⟩
    rw [Op.run, hrun]
    rfl
  | delEntry e =>
    obtain ⟨m', Te', hrun, I'⟩ := I.delEntry hv hok
    refine ⟨⟨m', hrun⟩, _, Ta, Ts, Te', ?_, I'⟩
    simp only [Op.run, hrun, bind, Except.bind, if_true, pure, Except.pure]

theorem Inv.init (h : NewBlock b m) : Inv b ⟨m, [], []⟩ .nil .nil .nil where
  trees := ⟨h.2.1, h.2.2, h.1, .refl _, by simp [Data], by simp [Data], by simp [Data], by simp, by simp,
    by simp⟩
  frees := .refl _
  entries := .refl _
  orderA := trivial
  orderS := trivial
  orderE := trivial
  intervalsF := ⟨.nil, by simp⟩
  intervalsE := ⟨.nil, by simp⟩

theorem run_inv {st : Sys} (h : NewBlock b m)
    (hrun : Relation.ReflTransGen (Step b fun st op => op.Faithful b st) ⟨m, [], []⟩ st) :
    ∃ Ta Ts Te, Inv b st Ta Ts Te := by
  refine Run.invariant (P := fun st => ∃ Ta Ts Te, Inv b st Ta Ts Te) hrun ⟨_, _, _, Inv.init h⟩ ?_
  rintro st st' ⟨Ta, Ts, Te, I⟩ ⟨op, hv, hok, hrun⟩
  obtain ⟨-, st'', Ta', Ts', Te', hrun', I'⟩ := I.step hv hok
  obtain rfl : st' = st'' := Except.ok.inj (hrun.symm.trans hrun')
  exact ⟨Ta', Ts', Te', I'⟩

/-! ### Searches -/

/-- The interval of `s` contains the address. -/
def Contains (m : Mem) (s addr : ℕ) : Prop := m s ≤ addr ∧ addr < m s + m (s + 8)

/-- `r` is a structure of `l` whose interval contains the address, NULL only where there is none. -/
def Finds (m : Mem) (l : List ℕ) (addr : ℕ) (r : Option ℕ) : Prop :=
  (∀ s, r = some s → s ∈ l ∧ Contains m s addr) ∧ (r = none → ∀ s ∈ l, ¬Contains m s addr)

theorem condFit_eq_zero {s addr : ℕ} (h : m s + m (s + 8) < 2 ^ 64) :
    condFit m addr s = 0 ↔ Contains m s addr := by
  rw [condFit, Contains, Word.add64_of_lt h]
  split
  · next hin => exact ⟨fun _ => hin, fun _ => rfl⟩
  · next hout =>
    refine ⟨fun h0 => ?_, fun hin => absurd hin hout⟩
    split at h0 <;> cases h0

theorem condFit_pos {s addr : ℕ} (h0 : condFit m addr s ≠ 0) : condFit m addr s > 0 ↔ m s ≤ addr := by
  rw [condFit] at h0 ⊢
  split
  · next hin => exact absurd (if_pos hin) h0
  split <;> omega

/-- In a tree ordered by start, the search for an address finds its interval. -/
theorem find_spec {T : BTree ℕ} (hT : Sorted m T) (hp : T.inorder.Perm l) (addr : ℕ) :
    Finds m l addr (T.search (fun y (s : Unit) => (condFit m addr y, s)) ()).1 := by
  refine ⟨fun s hs => ?_, fun hnone s hs hin => ?_⟩
  · obtain ⟨hmem, h0⟩ := BTree.search_sound hs
    exact ⟨hp.mem_iff.mp hmem, (condFit_eq_zero (hT.intervals.below s hmem)).mp h0⟩
  · have hs := hp.mem_iff.mpr hs
    obtain ⟨x, hx⟩ := hT.order.search_complete (condFit m addr) hs fun y hy h0 => by
      have hout : ¬Contains m y addr := fun h => h0 ((condFit_eq_zero (hT.intervals.below y hy)).mpr h)
      have hne : y ≠ s := by
        rintro rfl
        exact hout hin
      have hsymm : Std.Symm fun s x : ℕ =>
          m s ≠ m x ∧ (m s + m (s + 8) ≤ m x ∨ m x + m (x + 8) ≤ m s) :=
        ⟨fun _ _ h => ⟨h.1.symm, h.2.symm⟩⟩
      have hapart := hT.intervals.apart.forall hy hs hne
      rw [condFit_pos h0]
      simp only [Contains, not_and, not_lt] at hin hout
      refine ⟨hapart.1, ?_⟩
      rcases hapart.2 with h | h <;> omega
    rw [hnone] at hx
    cases hx

/-- What the trees of a block are for. -/
structure SearchTrees (b : ℕ) (st : Sys) : Prop where
  atree : ∃ T, Rep 16 st.mem (st.mem (b + 32)) T ∧ T.inorder.Perm st.frees ∧ T.Ordered fun s => st.mem s
  stree : ∃ T, Rep 40 st.mem (st.mem (b + 40)) T ∧ T.inorder.Perm st.frees ∧
    T.Ordered fun s => st.mem (s + 8)
  entries : ∃ T, Rep 40 st.mem (st.mem (b + 24)) T ∧ T.inorder.Perm st.entries ∧
    T.Ordered fun s => st.mem s
  findEntry : ∀ addr, ∃ r, findEntry b addr st.mem = .ok r ∧ Finds st.mem st.entries addr r
  findFreeEntry : ∀ addr, ∃ r, findFreeEntry b addr st.mem = .ok r ∧ Finds st.mem st.frees addr r
  searchFitSize : ∀ sz, ∃ r, searchFitSize b sz st.mem = .ok r ∧
    (∀ f, r = some f → BTree.Fits (fun s => st.mem (s + 8)) sz st.frees f) ∧
    (r = none ↔ ∀ f ∈ st.frees, st.mem (f + 8) < sz)

theorem Inv.searchTrees {st : Sys} {Ta Ts Te : BTree ℕ} (I : Inv b st Ta Ts Te) : SearchTrees b st where
  atree := ⟨Ta, I.trees.atree, I.frees, I.orderA⟩
  stree := ⟨Ts, I.trees.stree, I.trees.same.trans I.frees, I.orderS⟩
  entries := ⟨Te, I.trees.entries, I.entries, I.orderE⟩
  findEntry addr := ⟨_, I.trees.findEntry_eq addr, find_spec I.sortedE I.entries addr⟩
  findFreeEntry addr := ⟨_, I.trees.findFreeEntry_eq addr, find_spec I.sortedA I.frees addr⟩
  searchFitSize sz := by
    refine ⟨_, I.trees.searchFitSize_eq sz, ?_⟩
    have hmem : ∀ s, s ∈ Ts.inorder ↔ s ∈ st.frees := fun s => (I.trees.same.trans I.frees).mem_iff
    rcases I.orderS.search_fit none with ⟨x, hx, hfit⟩ | ⟨hx, hall⟩
    · rw [hx]
      refine ⟨?_, ?_⟩
      · rintro f hf
        cases hf
        exact ⟨(hmem x).mp hfit.1, hfit.2.1, fun y hy => hfit.2.2 y ((hmem y).mpr hy)⟩
      · refine ⟨fun h => (Option.some_ne_none x h).elim, fun h => ?_⟩
        exact absurd (h x ((hmem x).mp hfit.1)) (not_lt.mpr hfit.2.1)
    · rw [hx]
      refine ⟨fun f hf => (Option.some_ne_none f hf.symm).elim, ?_⟩
      exact ⟨fun _ f hf => hall f ((hmem f).mpr hf), fun _ => rfl⟩

/-- In every run from a new block whose calls are faithful, the trees are ordered, searches find what
    is there, and every further faithful call returns and finds the node it is to delete. -/
theorem block_trees_search {st : Sys} (h : NewBlock b m)
    (hrun : Relation.ReflTransGen (Step b fun st op => op.Faithful b st) ⟨m, [], []⟩ st) :
    SearchTrees b st ∧ ∀ op : Op, op.Valid b st → op.Faithful b st → op.Completes b st := by
  obtain ⟨Ta, Ts, Te, I⟩ := run_inv h hrun
  exact ⟨I.searchTrees, fun op hv hok => (I.step hv hok).1⟩

/-- Two intervals added in ascending order. -/
theorem block_trees_search_ascending : ∃ st : Sys, st.frees = [0x3000, 0x2000] ∧
    Relation.ReflTransGen (Step 0x1000 fun st op => op.Faithful 0x1000 st) ⟨fun _ => 0, [], []⟩ st ∧
    SearchTrees 0x1000 st := by
  obtain ⟨st₁, h₁⟩ : ∃ st₁, (Op.addFree 0x2000 0x10000 0x1000).run 0x1000 ⟨fun _ => 0, [], []⟩ = .ok st₁ :=
    ⟨_, rfl⟩
  obtain ⟨st₂, h₂⟩ : ∃ st₂, (Op.addFree 0x3000 0x20000 0x2000).run 0x1000 st₁ = .ok st₂ := by
    cases h₁
    exact ⟨_, rfl⟩
  have hs₁ : Step 0x1000 (fun st op => op.Faithful 0x1000 st) ⟨fun _ => 0, [], []⟩ st₁ := by
    refine ⟨.addFree 0x2000 0x10000 0x1000, ⟨⟨by simp, .inr (by decide), by decide⟩, by decide, by decide,
      by simp [Clear]⟩, ⟨by decide, ?_, ?_⟩, h₁⟩ <;> decide +kernel
  have hs₂ : Step 0x1000 (fun st op => op.Faithful 0x1000 st) st₁ st₂ := by
    refine ⟨.addFree 0x3000 0x20000 0x2000, ⟨⟨?_, .inr (by decide), by decide⟩, by decide, by decide, ?_⟩,
      ⟨by decide, ?_, ?_⟩, h₂⟩
    · cases h₁
      intro s hs
      obtain rfl := List.mem_singleton.mp hs
      exact .inr (by decide)
    · cases h₁
      intro s hs
      obtain rfl := List.mem_singleton.mp hs
      decide +kernel
    · cases h₁
      decide +kernel
    · cases h₁
      decide +kernel
  have hrun := (Relation.ReflTransGen.single hs₁).tail hs₂
  refine ⟨st₂, ?_, hrun, (block_trees_search ⟨rfl, rfl, rfl⟩ hrun).1⟩
  cases h₁
  cases h₂
  rfl

/-- Added in descending order, the second interval is not found, and deleting it stops the kernel. -/
theorem second_interval_lost : ∃ st : Sys, 0x3000 ∈ st.frees ∧
    Relation.ReflTransGen (Step 0x1000 fun _ _ => True) ⟨fun _ => 0, [], []⟩ st ∧
    Contains st.mem 0x3000 0x10800 ∧ findFreeEntry 0x1000 0x10800 st.mem = .ok none ∧
    freeDelete 0x1000 0x3000 st.mem = .error .panic := by
  obtain ⟨st₁, h₁⟩ : ∃ st₁, (Op.addFree 0x2000 0x20000 0x1000).run 0x1000 ⟨fun _ => 0, [], []⟩ = .ok st₁ :=
    ⟨_, rfl⟩
  obtain ⟨st₂, h₂⟩ : ∃ st₂, (Op.addFree 0x3000 0x10000 0x1000).run 0x1000 st₁ = .ok st₂ := by
    cases h₁
    exact ⟨_, rfl⟩
  have hs₁ : Step 0x1000 (fun _ _ => True) ⟨fun _ => 0, [], []⟩ st₁ :=
    ⟨.addFree 0x2000 0x20000 0x1000, ⟨⟨by simp, .inr (by decide), by decide⟩, by decide, by decide,
      by simp [Clear]⟩, trivial, h₁⟩
  have hs₂ : Step 0x1000 (fun _ _ => True) st₁ st₂ := by
    refine ⟨.addFree 0x3000 0x10000 0x1000, ⟨⟨?_, .inr (by decide), by decide⟩, by decide, by decide, ?_⟩,
      trivial, h₂⟩
    · cases h₁
      intro s hs
      obtain rfl := List.mem_singleton.mp hs
      exact .inr (by decide)
    · cases h₁
      intro s hs
      obtain rfl := List.mem_singleton.mp hs
      decide +kernel
  have hrun := (Relation.ReflTransGen.single hs₁).tail hs₂
  refine ⟨st₂, ?_, hrun, ?_⟩
  · cases h₁
    cases h₂
    decide +kernel
  · cases h₁
    cases h₂
    exact ⟨by simp only [Contains]; decide +kernel, by rfl, by rfl⟩

end Advos.Vmem
