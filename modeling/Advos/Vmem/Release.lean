import Advos.Vmem.Refused

/-! What freeing an entry does to its block.

    The pages and the object of the entry go back to the allocator. The range joins a free interval
    next to it, or becomes one:

        |-- f --|-- e --|        f grows to the end of e
        |-- e --|-- f --|        f starts where e starts
        |-- e --|                the structure of e becomes a free interval                    -/

namespace Advos.Vmem
open SearchTree Word List

variable {σ : Type}

/-- `_entry_free`: the interval `f` with the neighbouring range `e`. -/
def join (f e : ℕ × ℕ) : ℕ × ℕ := (if f.1 = add64 e.1 e.2 then e.1 else f.1, add64 f.2 e.2)

/-- `virt_memory_cond_neigh_free`. -/
def Neighbours (f e : ℕ × ℕ) : Prop := add64 e.1 e.2 = f.1 ∨ e.1 = add64 f.1 f.2

/-- The entry `e` of the block is gone, and its range is free. -/
structure Freed (v : ℕ) (live : σ → Set ℕ) (b : ℕ) (t t' : Forest) (e : ℕ) (O : ℕ → Prop)
    (M M' : Machine σ) : Prop where
  trees : Trees b M'.mem t'.a t'.s t'.e
  home : Home live M' b t'.nodes
  entries : t.e.inorder.Perm (e :: t'.e.inorder)
  frees : (t'.a.inorder.Perm (e :: t.a.inorder) ∧ span M'.mem e = span M.mem e ∧
      Kept 16 t.a.inorder M.mem M'.mem) ∨
    ∃ f ∈ t.a.inorder, t'.a.inorder.Perm (f :: t.a.inorder.erase f) ∧ Neighbours (span M.mem f) (span M.mem e) ∧
      span M'.mem f = join (span M.mem f) (span M.mem e) ∧ Kept 16 (t.a.inorder.erase f) M.mem M'.mem
  /-- The structure of the entry is a free interval, or it was returned. -/
  gone : e ∈ live M'.env → e ∈ t'.a.inorder
  /-- It is a free interval if the search for a neighbour finds none. -/
  alone : e ∈ t'.a.inorder →
    findNeighborFreeEntry b (M.mem e) (add64 (M.mem e) (M.mem (e + 8))) M.mem = .ok none
  keptE : Kept 40 t'.e.inorder M.mem M'.mem
  head : Kept 24 [b] M.mem M'.mem
  within : Within v live (fun p => p = b ∨ p ∈ t.nodes ∨ O p) M M'

section
variable {E : Env σ} {v b e f : ℕ} {live : σ → Set ℕ} {W O : ℕ → Prop} {M M₁ M' : Machine σ} {t : Forest}

theorem neighbours_of_cond {m : Mem} (h : virtMemoryCondNeighFree m (m e) (add64 (m e) (m (e + 8))) f = 0) :
    Neighbours (span m f) (span m e) := by
  rw [virtMemoryCondNeighFree] at h
  split at h
  · assumption
  · split at h <;> cases h

theorem entryFree_none (hE : Lawful E v live) (B : Block live M b t) (he : Spare live M b t.nodes e)
    (h64 : 64 ∣ M.mem e) (hne : M.mem e ≠ 0 ∨ t.a = .nil) {ret : ℤ} {m : Mem}
    (hadd : freeAdd b e (interval (clear M.mem e) e (M.mem e) (M.mem (e + 8))) = .ok (ret, m)) :
    ∃ Ta Ts, Block live { M with mem := m } b ⟨Ta, Ts, t.e⟩ ∧ Ta.inorder.Perm (e :: t.a.inorder) ∧
      span m e = span M.mem e ∧
      Moves v live b t.a.inorder t.e.inorder (fun p => p ∈ t.a.inorder ∨ p = e) M { M with mem := m } := by
  have hw : Within v live (· = e) M { M with mem := interval (clear M.mem e) e (M.mem e) (M.mem (e + 8)) } := by
    refine within_node hE (hE.node he.inUse) fun a ha => ?_
    rw [interval_of_ne (by omega) (by omega), clear_of_out ha]
  have hout : ∀ s ∈ t.nodes, s ≠ e := fun s hs heq => he.notMem (heq ▸ hs)
  have B1 := B.within hw he.block.symm hout
  have hret : ¬ret < 0 := by
    intro hneg
    have hzero := B1.freeAdd_refused hE (he.mem id) interval_start h64 hadd hneg
    rcases hne with h | h
    · exact h hzero.1
    · exact hzero.2 h
  obtain ⟨Ta, Ts, B2, hp, hmoves⟩ := B1.freeAdd_ok hE (he.mem id) hadd hret
  have hin : ∀ s ∈ e :: t.a.inorder, s ∈ live M.env ∧ s ≠ b :=
    forall_mem_cons.mpr ⟨⟨he.inUse, he.block⟩, B.free⟩
  refine ⟨Ta, Ts, B2, hp, ?_, ?_⟩
  · rw [(hmoves hin).keptA.span_eq (by decide) mem_cons_self]
    exact interval_span e (span M.mem e)
  · refine ((B.moves hw he.block.symm hout).mono (fun _ => id) (fun _ => id) fun p _ heq => .inr (.inr heq)).trans
      (hmoves B.free) (fun _ => id) (fun _ => id) fun p _ hp => .inr ?_
    exact (mem_cons.mp hp).symm

theorem entryFree_some (hE : Lawful E v live) (B : Block live M b t) (he : Spare live M b t.nodes e)
    (hf : f ∈ t.a.inorder) {r : ℕ} {m1 m2 : Mem} (hdel : freeDelete b f M.mem = .ok (r, m1))
    (hjoin : m2 = if m1 f = add64 (M.mem e) (M.mem (e + 8))
      then interval m1 f (M.mem e) (add64 (m1 (f + 8)) (M.mem (e + 8)))
      else set m1 (f + 8) (add64 (m1 (f + 8)) (M.mem (e + 8)))) {ret : ℤ} {m : Mem}
    (hadd : freeAdd b f (freeNode E v e { M with mem := m2 }).mem = .ok (ret, m)) (hret : ¬ret < 0) :
    ∃ Ta Ts, Block live { freeNode E v e { M with mem := m2 } with mem := m } b ⟨Ta, Ts, t.e⟩ ∧
      Ta.inorder.Perm (f :: t.a.inorder.erase f) ∧ span m f = join (span M.mem f) (span M.mem e) ∧
      Moves v live b (t.a.inorder.erase f) t.e.inorder (fun p => p ∈ t.a.inorder ∨ p = e) M
        { freeNode E v e { M with mem := m2 } with mem := m } := by
  obtain ⟨-, Ta1, Ts1, B1, hp1, hspare, hmoves1⟩ := B.freeDelete_ok hE hf hdel
  have hsub : ∀ s ∈ Ta1.inorder, s ∈ t.a.inorder := fun s hs => mem_of_mem_erase (hp1.mem_iff.mp hs)
  -- the interval `f` is extended
  have hspan2 : span m2 f = join (span M.mem f) (span M.mem e) := by
    have hspan1 := hmoves1.keptA.span_eq (by decide) hf
    simp only [span, Prod.mk.injEq] at hspan1
    rw [hjoin]
    simp only [span, join, ← hspan1.1, ← hspan1.2]
    split
    · exact Prod.ext interval_start interval_size
    · exact Prod.ext (set_of_ne (by omega)) (set_self ..)
  have hw2 : Within v live (· = f) { M with mem := m1 } { M with mem := m2 } := by
    refine within_node hE (hE.node hspare.inUse) fun a ha => ?_
    rw [hjoin]
    split
    · exact interval_of_ne (by omega) (by omega)
    · exact set_of_ne (by omega)
  have hw3 := freeNode_spec hE v (hE.node he.inUse) { M with mem := m2 }
  have hw : Within v live (fun p => p = f ∨ p = e) { M with mem := m1 } (freeNode E v e { M with mem := m2 }) :=
    (hw2.mono fun _ _ h => .inl h).trans hw3 fun _ _ h => .inr h
  have he1 : Spare live { M with mem := m1 } b (Forest.nodes ⟨Ta1, Ts1, t.e⟩) e := he.erased hp1
  have hout : ∀ s ∈ Forest.nodes ⟨Ta1, Ts1, t.e⟩, ¬(s = f ∨ s = e) := by
    rintro s hs (rfl | rfl)
    · exact hspare.notMem hs
    · exact he1.notMem hs
  have hb : ¬(b = f ∨ b = e) := not_or.mpr ⟨hspare.block.symm, he.block.symm⟩
  have B3 := B1.within hw hb hout
  have hef : f ≠ e := fun heq => he.notMem (heq ▸ mem_append_left _ hf)
  have hf3 := hw3.inUse f hspare.inUse hef
  obtain ⟨Ta, Ts, B4, hp, hmoves4⟩ := B3.freeAdd_ok hE ⟨hf3, hspare.block, hspare.notMem⟩ hadd hret
  refine ⟨Ta, Ts, B4, hp.trans (hp1.cons f), ?_, ?_⟩
  · have hkf := (hmoves4 (forall_mem_singleton.mpr ⟨hf3, hspare.block⟩)).keptA
    have hfree : Kept 64 [f] m2 (freeNode E v e { M with mem := m2 }).mem :=
      hw3.kept (forall_mem_singleton.mpr ⟨hspare.inUse, hef⟩)
    rw [hkf.span_eq (by decide) (mem_singleton_self f), hfree.span_eq (by decide) (mem_singleton_self f), hspan2]
  · refine (((hmoves1.mono (fun s hs => mem_of_mem_erase hs) (fun _ => id) fun p _ hp => .inr (.inl hp)).trans
      (B1.moves hw hb hout) (fun s hs => hp1.mem_iff.mpr hs) (fun _ => id) fun p _ hp => .inr ?_)).trans
      (hmoves4 B3.free) (fun s hs => hp1.mem_iff.mpr hs) (fun _ => id) fun p _ hp => .inr (.inl ?_)
    · rcases hp with rfl | hp
      · exact .inl hf
      · exact .inr hp
    · rcases mem_cons.mp hp with rfl | hp
      · exact hf
      · exact hsub p hp

theorem findNeighborFreeEntry_congr {m m' : Mem} {Te Te' : BTree ℕ} {Ta Ts : BTree ℕ} (H : Trees b m Ta Ts Te)
    (H' : Trees b m' Ta Ts Te') (hk : Kept 16 Ta.inorder m m') (start fin : ℕ) :
    findNeighborFreeEntry b start fin m' = findNeighborFreeEntry b start fin m := by
  rw [H.findNeighborFreeEntry_eq, H'.findNeighborFreeEntry_eq]
  congr 2
  refine BTree.search_congr (fun y hy => ?_) ()
  have hspan := hk.span_eq (by decide) hy
  simp only [span, Prod.mk.injEq] at hspan
  simp only [virtMemoryCondNeighFree, hspan.1, hspan.2]

/-- The nodes that go back with an entry: its object and the pages of that. -/
def Gone (M : Machine σ) (o p : ℕ) : Prop := p = o ∨ ∃ q ∈ (M.obj o).pages, p = q.addr

/-- FREED: `virt_memory_free_pages` on the entry `e`, when it returns. -/
theorem freeEntry_freed (hE : Lawful E v live) (B : Block live M b t) (he : e ∈ t.e.inorder)
    (hO : ∀ p, Gone M (M.mem (e + 16)) p → p ∈ live M.env ∧ p ≠ b ∧ p ∉ t.nodes) (h64 : 64 ∣ M.mem e)
    (hcond : M.mem e ≠ 0 ∨ M.mem (b + 32) = 0 ∨
      ∃ f, findNeighborFreeEntry b (M.mem e) (add64 (M.mem e) (M.mem (e + 8))) M.mem = .ok (some f))
    (h : freeEntry E v b e M = .ok M') :
    ∃ t', Freed v live b t t' e (Gone M (M.mem (e + 16))) M M' := by
  obtain ⟨m2, hdel, h⟩ := freeEntry_cases h
  obtain ⟨o, ho⟩ : ∃ o, M.mem (e + 16) = o := ⟨_, rfl⟩
  rw [ho] at hO hdel h ⊢
  -- the pages and the object
  have hw1 : Within v live (Gone M o) M (freeNode E v o (pagesFree E v (M.obj o).pages M)) :=
    ((pagesFree_spec hE v (fun q hq => hE.node (hO q.addr (.inr ⟨q, hq, rfl⟩)).1) M).mono
      fun _ _ h => .inr h).trans (freeNode_spec hE v (hE.node (hO o (.inl rfl)).1) _) fun _ _ h => .inl h
  obtain ⟨M₁, hM1⟩ : ∃ M₁, freeNode E v o (pagesFree E v (M.obj o).pages M) = M₁ := ⟨_, rfl⟩
  rw [hM1] at hdel h hw1
  have hb : ¬Gone M o b := fun hg => (hO b hg).2.1 rfl
  have ht : ∀ s ∈ t.nodes, ¬Gone M o s := fun s hs hg => (hO s hg).2.2 hs
  -- the entry leaves its tree
  obtain ⟨Te, B2, hp, hspare, hmoves2⟩ := (B.within hw1 hb ht).entryDelete_ok hE he hdel
  have hsub : ∀ s ∈ Te.inorder, s ∈ t.e.inorder := fun s hs => hp.mem_iff.mpr (mem_cons_of_mem _ hs)
  have hmoves : Moves v live b t.a.inorder t.e.inorder (fun p => p ∈ t.nodes ∨ Gone M o p) M { M₁ with mem := m2 } :=
    ((B.moves hw1 hb ht).mono (fun _ => id) (fun _ => id) fun p _ hg => .inr (.inr hg)).trans hmoves2 (fun _ => id)
      (fun _ => id) fun p _ hp => .inr (.inl (mem_append_right _ hp))
  have hspan : span m2 e = span M.mem e := hmoves.keptE.span_eq (by decide) he
  obtain ⟨hstart, hsize⟩ := Prod.mk.inj hspan
  have hW : ∀ p ∈ live M.env, p ∈ t.a.inorder ∨ p = e → p = b ∨ p ∈ t.nodes ∨ Gone M o p := by
    rintro p _ (hp | rfl)
    · exact .inr (.inl (mem_append_left _ hp))
    · exact .inr (.inl (mem_append_right _ he))
  obtain ⟨nb, hnb, hcases⟩ := entryFree_cases h
  have hnb' : findNeighborFreeEntry b (M.mem e) (add64 (M.mem e) (M.mem (e + 8))) M.mem = .ok nb := by
    rw [← findNeighborFreeEntry_congr B.trees B2.trees hmoves.keptA, ← hstart, ← hsize]
    exact hnb
  rcases hcases with ⟨rfl, ret, m3, hadd, rfl⟩ | ⟨f, r, m3, m4, m5, rfl, hdelf, hjoin, hadd, rfl⟩
  · have hne : m2 e ≠ 0 ∨ t.a = .nil := by
      rcases hcond with h | h | ⟨f, hf⟩
      · exact .inl (hstart ▸ h)
      · refine .inr ?_
        have hrep := B.trees.atree
        rw [h] at hrep
        cases hT : t.a with
        | nil => rfl
        | node l s r =>
          rw [hT] at hrep
          exact absurd hrep.1 (by omega)
      · rw [hnb'] at hf
        cases hf
    obtain ⟨Ta, Ts, B', hpa, hse, hmoves3⟩ := entryFree_none hE B2 hspare (show 64 ∣ m2 e from hstart ▸ h64) hne hadd
    have hall := (hmoves.mono (fun _ => id) hsub fun _ _ => .inr).trans hmoves3 (fun _ => id) (fun _ => id) hW
    exact ⟨⟨Ta, Ts, Te⟩, B'.trees, B'.home, hp, .inl ⟨hpa, hse.trans hspan, hall.keptA⟩,
      fun _ => hpa.mem_iff.mpr mem_cons_self, fun _ => hnb', hall.keptE, hall.head, hall.within⟩
  · rw [B.trees.findNeighborFreeEntry_eq] at hnb'
    obtain ⟨hf, hc⟩ := BTree.search_sound (Except.ok.inj hnb')
    obtain ⟨Ta, Ts, B', hpa, hsf, hmoves3⟩ := entryFree_some hE B2 hspare hf hdelf hjoin hadd (by decide)
    have hall := (hmoves.mono (fun s hs => mem_of_mem_erase hs) hsub fun _ _ => .inr).trans hmoves3 (fun _ => id)
      (fun _ => id) hW
    refine ⟨⟨Ta, Ts, Te⟩, B'.trees, B'.home, hp, .inr ⟨f, hf, hpa, neighbours_of_cond hc, ?_, hall.keptA⟩,
      fun hmem => ?_, fun hmem => ?_, hall.keptE, hall.head, hall.within⟩
    · rw [hsf]
      exact congrArg₂ join (hmoves.keptA.span_eq (by decide) hf) hspan
    · rw [freeNode_live hE] at hmem
      exact absurd rfl hmem.2
    · refine absurd (mem_append_left _ ?_) hspare.notMem
      rcases mem_cons.mp (hpa.mem_iff.mp hmem) with rfl | hmem
      · exact hf
      · exact mem_of_mem_erase hmem

end

end Advos.Vmem
