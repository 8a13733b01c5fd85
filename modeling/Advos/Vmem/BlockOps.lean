import Advos.Vmem.Block

/-! What the operations on the trees of a block do, for any order of the nodes.

    Each operation is `add`, `delete` or `search` on the trees, with the comparison the source makes:
    between a structure and the links of a node. -/

namespace Advos.Vmem
open SearchTree List

/-- What `virt_memory_comp_addr` answers for the structure `n` at the node of `y`. -/
def cmpAddr (off : ℕ) (m : Mem) (n y : ℕ) : ℤ := virtMemoryCompAddr m n (y + off)

/-- What `virt_memory_comp_size` answers for the structure `n` at the node of `y`. -/
def cmpSize (off : ℕ) (m : Mem) (n y : ℕ) : ℤ := virtMemoryCompSize m n (y + off)

variable {b n f : ℕ} {m m' : Mem} {Ta Ts Te : BTree ℕ}

theorem Fresh.subset {used used' : List ℕ} (h : Fresh b used n) (hs : ∀ s ∈ used', s ∈ used) :
    Fresh b used' n :=
  ⟨fun s hs' => h.apart s (hs s hs'), h.block, h.below⟩

/-- Words outside a new structure are those of the block and of the structures in use. -/
theorem Fresh.word {used : List ℕ} {s i : ℕ} (hn : Fresh b used n) (h : ∀ a, a < n ∨ n + 64 ≤ a → m' a = m a)
    (hs : s = b ∨ s ∈ used) (hi : i < 64) : m' (s + i) = m (s + i) := by
  rcases hs with rfl | hs
  · rcases hn.block with h' | h' <;> exact h _ (by omega)
  · rcases hn.apart s hs with h' | h' <;> exact h _ (by omega)

theorem Trees.of_out (H : Trees b m Ta Ts Te) (hn : Fresh b (Ta.inorder ++ Te.inorder) n)
    (h : ∀ a, a < n ∨ n + 64 ≤ a → m' a = m a) : Trees b m' Ta Ts Te :=
  H.congr ⟨hn.word h (.inl rfl) (by decide), hn.word h (.inl rfl) (by decide), hn.word h (.inl rfl) (by decide)⟩
    (fun _ hs _ _ hi => hn.word h (.inr (mem_append_left _ hs)) hi)
    fun _ hs _ _ hi => hn.word h (.inr (mem_append_right _ hs)) hi

/-! ### Setting an interval -/

section Interval
variable {start size : ℕ}

theorem interval_start : interval m n start size n = start := by
  rw [interval, set_of_ne (by omega), set_self]

theorem interval_size : interval m n start size (n + 8) = size := by rw [interval, set_self]

theorem interval_of_ne {a : ℕ} (h1 : a ≠ n) (h2 : a ≠ n + 8) : interval m n start size a = m a := by
  rw [interval, set_of_ne h2, set_of_ne h1]

theorem Trees.setInterval (start size : ℕ) (H : Trees b m Ta Ts Te)
    (hn : Fresh b (Ta.inorder ++ Te.inorder) n) :
    Trees b (interval m n start size) Ta Ts Te :=
  H.of_out hn fun _ _ => interval_of_ne (by omega) (by omega)

end Interval

/-! ### Entries -/

theorem entryAdd_spec (H : Trees b m Ta Ts Te) (hn : Fresh b (Ta.inorder ++ Te.inorder) n) :
    ∃ r m', entryAdd b n m = .ok (r, m') ∧ EntryFrame b (n :: Te.inorder) m m' ∧
      (r = 0 ∧ (∃ Te', Te.add (cmpAddr 40 m n) false n = some Te' ∧ Trees b m' Ta Ts Te') ∨
        r = -1 ∧ Te.add (cmpAddr 40 m n) false n = none ∧ Trees b m' Ta Ts Te) := by
  have hfresh : Fresh b Te.inorder n := hn.subset fun s hs => mem_append_right _ hs
  -- first the data field of the new node is set
  have hset : ∀ a, a ≠ n + 56 → set m (n + 56) n a = m a := fun a ha => set_of_ne ha
  have hout : ∀ a, a < n ∨ n + 64 ≤ a → set m (n + 56) n a = m a := fun a ha => hset a (by omega)
  have H1 := H.of_out hn hout
  have hcmp : ∀ y ∈ Te.inorder, virtMemoryCompAddr (set m (n + 56) n) n (y + 40) = cmpAddr 40 m n y := by
    intro y hy
    rw [cmpAddr, virtMemoryCompAddr, virtMemoryCompAddr, hset n (by omega), hfresh.word hout (.inr hy) (by decide)]
  rcases H1.treeE.add false hfresh (set_self ..) hcmp with
    ⟨hadd, hrun⟩ | ⟨Te', m', hadd, hrun, hE, hframe⟩
  · refine ⟨-1, _, hrun, fun a ha hS => hset a ?_, .inr ⟨rfl, hadd, H1⟩⟩
    rcases hS n mem_cons_self with h | h <;> omega
  · have hfr : EntryFrame b (n :: Te.inorder) m m' := by
      intro a ha hS
      have hword := hframe a ha fun s hs => by rcases hS s hs with h | h <;> omega
      rw [hword, hset]
      rcases hS n mem_cons_self with h | h <;> omega
    refine ⟨0, m', hrun, hfr, .inl ⟨rfl, Te', hadd, ?_⟩⟩
    refine H.withEntries hfr (H.placedE.cons hfresh) (fun s hs x hx => ?_)
      (fun s hs => (BTree.perm_add hadd).mem_iff.mp hs) hE
    rcases mem_cons.mp hs with rfl | hs
    · exact hn.apart x (mem_append_left _ hx)
    · exact (H.apartAE hx hs).symm

theorem entryDelete_spec (H : Trees b m Ta Ts Te) (hn : n ∈ Te.inorder) :
    (Te.delete (cmpAddr 40 m n) n = none ∧ entryDelete b n m = .ok (none, m)) ∨
      ∃ Te' m', Te.delete (cmpAddr 40 m n) n = some Te' ∧ entryDelete b n m = .ok (some n, m') ∧
        Trees b m' Ta Ts Te' ∧ EntryFrame b Te.inorder m m' := by
  have hcmp : ∀ y ∈ Te.inorder, virtMemoryCompAddr m (m (n + 40 + 16)) (y + 40) = cmpAddr 40 m n y := by
    intro y _
    rw [H.dataE n hn, cmpAddr]
  rcases H.treeE.delete hcmp with ⟨hdel, hrun⟩ | ⟨Te', m', hdel, hrun, hE, hframe⟩
  · refine .inl ⟨hdel, ?_⟩
    simp only [entryDelete, hrun, bind, Except.bind]
    rfl
  · have hsub : ∀ s ∈ Te'.inorder, s ∈ Te.inorder :=
      fun s hs => (BTree.perm_delete hdel).mem_iff.mpr (mem_cons_of_mem _ hs)
    have hfr : EntryFrame b Te.inorder m m' :=
      fun a ha hS => hframe a ha fun s hs => by rcases hS s hs with h | h <;> omega
    refine .inr ⟨Te', m', hdel, ?_, ?_, hfr⟩
    · have hkeep : m' (n + 56) = m (n + 56) :=
        hframe.word H.placedE (by decide) (by decide) hn (by decide) (by decide) (by decide)
      have hnode : nodeData m' (n + 40) = some n := by
        rw [nodeData, if_neg (by omega)]
        exact congrArg some (hkeep.trans (H.dataE n hn))
      simp only [entryDelete, hrun, bind, Except.bind, hnode]
      rfl
    · exact H.withEntries hfr H.placedE (fun s hs x hx => (H.apartAE hx hs).symm) hsub hE

/-! ### Free intervals -/

theorem TreeFrame.freeFrame {S : List ℕ} {m1 : Mem} (h1 : TreeFrame 16 (b + 32) S m m1)
    (h2 : TreeFrame 40 (b + 40) S m1 m') : FreeFrame b S m m' := by
  intro a h32 h40 hS
  have e2 := h2 a h40 fun s hs => by rcases hS s hs with h | h <;> omega
  have e1 := h1 a h32 fun s hs => by rcases hS s hs with h | h <;> omega
  rw [e2, e1]

theorem freeAdd_spec (H : Trees b m Ta Ts Te) (hf : Fresh b (Ta.inorder ++ Te.inorder) f) :
    (Ta.add (cmpAddr 16 m f) false f = none ∧ ∃ m', freeAdd b f m = .ok (-1, m') ∧
        Trees b m' Ta Ts Te ∧ FreeFrame b (f :: Ta.inorder) m m') ∨
      ∃ Ta' Ts' m', Ta.add (cmpAddr 16 m f) false f = some Ta' ∧
        Ts.add (cmpSize 40 m f) true f = some Ts' ∧ freeAdd b f m = .ok (0, m') ∧
        Trees b m' Ta' Ts' Te ∧ FreeFrame b (f :: Ta.inorder) m m' := by
  have hfreshA : Fresh b Ta.inorder f := hf.subset fun s hs => mem_append_left _ hs
  have hfreshS : Fresh b Ts.inorder f := hfreshA.subset fun s hs => H.mem_stree.mp hs
  -- the two data fields of the new structure
  obtain ⟨m0, hm0⟩ : ∃ m0, m0 = set (set m (f + 32) f) (f + 56) f := ⟨_, rfl⟩
  have hset : ∀ a, a ≠ f + 32 → a ≠ f + 56 → m0 a = m a := by
    intro a h1 h2
    rw [hm0, set_of_ne h2, set_of_ne h1]
  have hd32 : m0 (f + 32) = f := by rw [hm0, set_of_ne (by omega), set_self]
  have hd56 : m0 (f + 56) = f := by rw [hm0, set_self]
  have hout : ∀ a, a < f ∨ f + 64 ≤ a → m0 a = m a := fun a ha => hset a (by omega) (by omega)
  have H0 := H.of_out hf hout
  have hcmpA : ∀ y ∈ Ta.inorder, virtMemoryCompAddr m0 f (y + 16) = cmpAddr 16 m f y := by
    intro y hy
    have hf' : m0 f = m f := hset _ (by omega) (by omega)
    rw [cmpAddr, virtMemoryCompAddr, virtMemoryCompAddr, hf', hfreshA.word hout (.inr hy) (by decide)]
  have hS : Placed b (f :: Ta.inorder) := H.placedA.cons hfreshA
  rcases H0.treeA.add false hfreshA hd32 hcmpA with ⟨hadd, hrun⟩ | ⟨Ta', m1, hadd, hrun, hA, hfrA⟩
  · refine .inl ⟨hadd, m0, ?_, H0, fun a _ _ hS => ?_⟩
    · simp only [freeAdd, ← hm0, hrun, bind, Except.bind]
      rfl
    · rcases hS f mem_cons_self with h | h <;> exact hset a (by omega) (by omega)
  · -- the second tree is as it was
    have hstree : BlockTree 40 b 40 m1 Ts :=
      H0.treeS.of_frame hfrA hS (fun s hs => mem_cons_of_mem _ (H.mem_stree.mp hs)) (by decide)
        (by decide) (by decide) (by decide)
    have hword : ∀ {s j}, s ∈ f :: Ta.inorder → j < 64 → j ≠ 16 → j ≠ 24 → m1 (s + j) = m0 (s + j) :=
      fun hs hj h1 h2 => hfrA.word hS (by decide) (by decide) hs hj h1 h2
    have hf56 : m1 (f + 56) = f :=
      (hword mem_cons_self (by decide) (by decide) (by decide)).trans hd56
    have hcmpS : ∀ y ∈ Ts.inorder, virtMemoryCompSize m1 f (y + 40) = cmpSize 40 m f y := by
      intro y hy
      have hyA := H.mem_stree.mp hy
      have hf8 : m1 (f + 8) = m (f + 8) :=
        (hword mem_cons_self (by decide) (by decide) (by decide)).trans
          (hset _ (by omega) (by omega))
      have hy48 : m1 (y + 40 + 8) = m (y + 40 + 8) :=
        (hword (j := 48) (mem_cons_of_mem _ hyA) (by decide) (by decide) (by decide)).trans
          (hfreshA.word hout (i := 48) (.inr hyA) (by decide))
      rw [cmpSize, virtMemoryCompSize, virtMemoryCompSize, hf8, hy48]
    have hperm := BTree.perm_add hadd
    obtain ⟨Ts', hTs'⟩ : ∃ Ts', Ts.add (cmpSize 40 m f) true f = some Ts' :=
      BTree.exists_add (fun hmem => by
        have h := hfreshS.apart f hmem
        rcases h with h | h <;> omega) (.inl rfl)
    rcases hstree.add true hfreshS hf56 hcmpS with ⟨hnone, -⟩ | ⟨Ts'', m2, hadd', hrun', hS', hfrS⟩
    · rw [hTs'] at hnone
      cases hnone
    obtain rfl : Ts' = Ts'' := Option.some.inj (hTs'.symm.trans hadd')
    have hfrS' : TreeFrame 40 (b + 40) (f :: Ta.inorder) m1 m2 :=
      fun a ha hout => hfrS a ha fun s hs => hout s ((H.same.cons f).mem_iff.mp hs)
    have hfr : FreeFrame b (f :: Ta.inorder) m m2 := by
      intro a h32 h40 hout
      rw [hfrA.freeFrame hfrS' a h32 h40 hout]
      rcases hout f mem_cons_self with h | h <;> exact hset a (by omega) (by omega)
    refine .inr ⟨Ta', Ts', m2, hadd, hTs', ?_, ?_, hfr⟩
    · simp only [freeAdd, ← hm0, hrun, hrun', bind, Except.bind]
      rfl
    · refine H.withFrees hfr hS (fun s hs x hx => ?_) (fun s hs => hperm.mem_iff.mp hs)
        (hA.of_frame hfrS' hS (fun s hs => hperm.mem_iff.mp hs) (by decide) (by decide) (by decide) (by decide))
        hS' ((BTree.perm_add hTs').trans ((H.same.cons f).trans hperm.symm))
      rcases mem_cons.mp hs with rfl | hs
      · exact hf.apart x (mem_append_right _ hx)
      · exact H.apartAE hs hx

/-- Both trees must give up the structure; otherwise a `kassert` stops the kernel. -/
theorem freeDelete_spec (H : Trees b m Ta Ts Te) (hf : f ∈ Ta.inorder) :
    (∃ Ta' Ts' m', Ta.delete (cmpAddr 16 m f) f = some Ta' ∧ Ts.delete (cmpSize 40 m f) f = some Ts' ∧
        freeDelete b f m = .ok (f, m') ∧ Trees b m' Ta' Ts' Te ∧ FreeFrame b Ta.inorder m m') ∨
      (Ta.delete (cmpAddr 16 m f) f = none ∨ Ts.delete (cmpSize 40 m f) f = none) ∧
        freeDelete b f m = .error .panic := by
  have hS := H.placedA
  have hcmpA : ∀ y ∈ Ta.inorder, virtMemoryCompAddr m (m (f + 16 + 16)) (y + 16) = cmpAddr 16 m f y := by
    intro y _
    rw [H.dataA f hf, cmpAddr]
  -- the second tree is searched after the first has changed, or not
  have hcmpS : ∀ {m1 : Mem}, TreeFrame 16 (b + 32) Ta.inorder m m1 → ∀ y ∈ Ts.inorder,
      virtMemoryCompSize m1 (m1 (f + 40 + 16)) (y + 40) = cmpSize 40 m f y := by
    intro m1 hfrA y hy
    have hword : ∀ {s j}, s ∈ Ta.inorder → j < 64 → j ≠ 16 → j ≠ 24 → m1 (s + j) = m (s + j) :=
      fun hs hj h1 h2 => hfrA.word hS (by decide) (by decide) hs hj h1 h2
    have h56 : m1 (f + 40 + 16) = f :=
      (hword (j := 56) hf (by decide) (by decide) (by decide)).trans (H.dataS f (H.mem_stree.mpr hf))
    have h48 : m1 (y + 40 + 8) = m (y + 40 + 8) :=
      hword (j := 48) (H.mem_stree.mp hy) (by decide) (by decide) (by decide)
    rw [h56, cmpSize, virtMemoryCompSize, virtMemoryCompSize,
      hword hf (by decide) (by decide) (by decide), h48]
  rcases H.treeA.delete hcmpA with ⟨hdelA, hrunA⟩ | ⟨Ta', m1, hdelA, hrunA, hA, hfrA⟩
  · -- not in the first tree: NULL fails the check
    refine .inr ⟨.inl hdelA, ?_⟩
    rcases H.treeS.delete (hcmpS fun _ _ _ => rfl) with ⟨-, hrunS⟩ | ⟨Ts', m2, -, hrunS, -, -⟩
    · simp only [freeDelete, hrunA, hrunS, bind, Except.bind, kassert]
      rfl
    · simp only [freeDelete, hrunA, hrunS, bind, Except.bind, kassert]
      rfl
  have hstree : BlockTree 40 b 40 m1 Ts :=
    H.treeS.of_frame hfrA hS (fun s hs => H.mem_stree.mp hs) (by decide) (by decide) (by decide) (by decide)
  rcases hstree.delete (hcmpS hfrA) with ⟨hdelS, hrunS⟩ | ⟨Ts', m2, hdelS, hrunS, hS', hfrS⟩
  · refine .inr ⟨.inr hdelS, ?_⟩
    simp only [freeDelete, hrunA, hrunS, bind, Except.bind, kassert]
    simp
  have hfrS' : TreeFrame 40 (b + 40) Ta.inorder m1 m2 :=
    fun a ha hout => hfrS a ha fun s hs => hout s (H.mem_stree.mp hs)
  have hperm := BTree.perm_delete hdelA
  have hsub : ∀ s ∈ Ta'.inorder, s ∈ Ta.inorder :=
    fun s hs => hperm.mem_iff.mpr (mem_cons_of_mem _ hs)
  have hsame : Ts'.inorder.Perm Ta'.inorder :=
    (perm_cons f).mp ((BTree.perm_delete hdelS).symm.trans (H.same.trans hperm))
  have hfr : FreeFrame b Ta.inorder m m2 := hfrA.freeFrame hfrS'
  refine .inl ⟨Ta', Ts', m2, hdelA, hdelS, ?_, ?_, hfr⟩
  · have hword : ∀ {j}, j < 64 → j ≠ 16 → j ≠ 24 → j ≠ 40 → j ≠ 48 → m2 (f + j) = m (f + j) :=
      fun hj h1 h2 h3 h4 => (hfrS'.word hS (by decide) (by decide) hf hj h3 h4).trans
        (hfrA.word hS (by decide) (by decide) hf hj h1 h2)
    have h32 : m2 (f + 16 + 16) = f :=
      (hword (j := 32) (by decide) (by decide) (by decide) (by decide) (by decide)).trans (H.dataA f hf)
    have h56 : m2 (f + 40 + 16) = f :=
      (hword (j := 56) (by decide) (by decide) (by decide) (by decide) (by decide)).trans
        (H.dataS f (H.mem_stree.mpr hf))
    simp only [freeDelete, hrunA, hrunS, bind, Except.bind, kassert, h32, h56]
    simp [pure, Except.pure]
  · exact H.withFrees hfr hS (fun s hs x hx => H.apartAE hs hx) hsub
      (hA.of_frame hfrS' hS hsub (by decide) (by decide) (by decide) (by decide)) hS' hsame

/-! ### Searches -/

theorem searchBy_spec {off i : ℕ} {T : BTree ℕ} {cond : ℕ → ℤ} (hT : BlockTree off b i m T) :
    searchBy cond m (m (b + i)) = .ok (T.search (fun y (s : Unit) => (cond y, s)) ()).1 := by
  have h := btreeSearch_rep (fun a (s : Unit) => (cond a, s)) hT.rep hT.data hT.length_lt ()
  simp only [searchBy, h, bind, Except.bind, pure, Except.pure]
  cases hs : (T.search (fun y (s : Unit) => (cond y, s)) ()).1 with
  | none => rfl
  | some x =>
    have hx := (BTree.search_sound hs).1
    have hpos := (hT.placed.below x hx).1
    rw [nodePtr, nodeData, if_neg (by omega), hT.data x hx]

namespace Trees
variable (H : Trees b m Ta Ts Te)
include H

theorem findFreeEntry_eq (addr : ℕ) : findFreeEntry b addr m =
    .ok (Ta.search (fun y (s : Unit) => (condFit m addr y, s)) ()).1 :=
  searchBy_spec H.treeA

theorem findNeighborFreeEntry_eq (start fin : ℕ) : findNeighborFreeEntry b start fin m =
    .ok (Ta.search (fun y (s : Unit) => (virtMemoryCondNeighFree m start fin y, s)) ()).1 :=
  searchBy_spec H.treeA

theorem findEntry_eq (addr : ℕ) : findEntry b addr m =
    .ok (Te.search (fun y (s : Unit) => (condFit m addr y, s)) ()).1 :=
  searchBy_spec H.treeE

theorem searchFitSize_eq (sz : ℕ) : searchFitSize b sz m =
    .ok (Ts.search (BTree.fit (fun s => m (s + 8)) sz) none).2 := by
  have hcond : virtMemoryCondFitFreeSize m sz = BTree.fit (fun s => m (s + 8)) sz := rfl
  have h := btreeSearch_rep (virtMemoryCondFitFreeSize m sz) H.stree H.dataS H.treeS.length_lt none
  rw [hcond] at h
  simp only [searchFitSize, hcond, h, bind, Except.bind, pure, Except.pure]

end Trees

end Advos.Vmem
