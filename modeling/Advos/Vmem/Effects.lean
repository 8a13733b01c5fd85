import Advos.Vmem.Calls

/-! What the calls do to the environment.

    Most parts of a call only take nodes and return them. A function of the state of the environment
    that does not see nodes is changed by the page loops alone, by the unwinding at `error_page`, and
    by `_pages_free`:

        allocRange     nodes . pageLoop . entry, rest of f
                       nodes . pageLoop . unmapPages . nodes       (error)
        allocEntry     nodes . entry, rest of f . pageLoop
        freeEntry      pagesFree . nodes, entry                                    -/

namespace Advos.Vmem

variable {σ α : Type}

/-- Nodes, and the tables for a new block, do not matter to `g`. -/
structure Inert (E : Env σ) (g : σ → α) : Prop where
  alloc : ∀ s u, g (E.alloc s u).2 = g s
  free : ∀ s u p, g (E.free s u p).2 = g s
  prepare : ∀ s a x n, g (E.prepare s a x n).2 = g s

/-! ### Nodes that are freed -/

section Free
variable {E : Env σ} {g : σ → α} (hfree : ∀ s u p, g (E.free s u p).2 = g s) {v b e f f0 f1 : ℕ} {M M' : Machine σ}
include hfree

theorem freeNode_env (v p : ℕ) (M : Machine σ) : g (freeNode E v p M).env = g M.env := by
  rw [freeNode_free]
  exact hfree M.env v p

theorem releaseNodes_env (v : ℕ) (n : Nodes) (M : Machine σ) : g (releaseNodes E v n M).env = g M.env := by
  simp only [releaseNodes, freeNode_env hfree]

theorem splitFree_env {keepF1 done : Bool} (h : splitFree E v b e f f0 f1 keepF1 M = .ok (done, M')) :
    g M'.env = g M.env := by
  obtain ⟨f', m, used, m', -, -, ⟨-, -, rfl⟩ | ⟨us, -, -, rfl⟩⟩ := splitFree_cases h
  · rfl
  · rw [giveBack, freeNode_env hfree]
    split <;> split <;> simp only [freeNode_env hfree]

end Free

section
variable {E : Env σ} {g : σ → α} (H : Inert E g) {v b e f f0 f1 : ℕ} {M M' : Machine σ}
include H

/-! ### Nodes -/

theorem Inert.freeNode (v p : ℕ) (M : Machine σ) : g (freeNode E v p M).env = g M.env := freeNode_env H.free v p M

theorem Inert.allocated {r : Option ℕ} (h : allocNode E v M = (r, M')) : g M'.env = g M.env := by
  have hkeep := H.alloc M.env v
  rwa [allocNode_alloc h] at hkeep

theorem Inert.keptByAlloc (M : Machine σ) : KeptByAlloc E v fun _ N => g N.env = g M.env :=
  fun _ _ _ _ hg halloc => (H.allocated halloc).trans hg

theorem Inert.keptByFree (M : Machine σ) : KeptByFree E v fun _ N => g N.env = g M.env :=
  fun _ _ _ hg => (H.freeNode ..).trans hg

theorem Inert.prepareNodes {r : Option Nodes} (h : prepareNodes E v M = (r, M')) : g M'.env = g M.env :=
  prepareNodes_rule (H.keptByAlloc M) (H.keptByFree M) rfl h

theorem Inert.prepareEntry {r : Option (ℕ × ℕ × ℕ)} (h : prepareEntry E v M = (r, M')) : g M'.env = g M.env :=
  prepareEntry_rule (H.keptByAlloc M) (H.keptByFree M) rfl h

theorem Inert.releaseNodes (v : ℕ) (n : Nodes) (M : Machine σ) : g (releaseNodes E v n M).env = g M.env :=
  releaseNodes_env H.free v n M

/-! ### Trees -/

theorem Inert.splitFree {keepF1 done : Bool} (h : splitFree E v b e f f0 f1 keepF1 M = .ok (done, M')) :
    g M'.env = g M.env := splitFree_env H.free h

theorem Inert.entryFree (h : entryFree E v b e M = .ok M') : g M'.env = g M.env := by
  obtain ⟨-, -, ⟨-, ret, m, -, rfl⟩ | ⟨f, r, m1, m2, m, -, -, -, -, rfl⟩⟩ := entryFree_cases h
  · rfl
  · exact H.freeNode ..

theorem Inert.freeEntry (h : freeEntry E v b e M = .ok M') :
    g M'.env = g (pagesFree E v (M.obj (M.mem (e + 16))).pages M).env := by
  obtain ⟨m, -, h⟩ := freeEntry_cases h
  rw [H.entryFree h]
  exact H.freeNode ..

/-! ### Calls -/

theorem Inert.blockAdd {start fin n : ℕ} (h : virtMemoryBlockAdd E v start fin M = .ok (n, M')) :
    g M'.env = g M.env := by
  rcases virtMemoryBlockAdd_cases h with ⟨-, h1⟩ | ⟨b, M1, h1, ⟨-, M2, h2, rfl⟩ | ⟨fr, M2, ret, s, h2, hprep, hcases⟩⟩
  · exact H.allocated h1
  · rw [H.freeNode, H.allocated h2, H.allocated h1]
  have hs := H.prepare M2.env (setBlock M2.mem b fr start fin (v + 48)) start (Word.add64 (Word.sub64 fin start) 1)
  rw [hprep, H.allocated h2, H.allocated h1] at hs
  rcases hcases with ⟨-, rfl⟩ | ⟨-, c, -, rfl⟩
  · rw [H.freeNode, H.freeNode]
    exact hs
  · exact hs

theorem Inert.allocObject {size o : ℕ} (h : virtMemoryAllocObject E v size M = (o, M')) : g M'.env = g M.env := by
  rcases virtMemoryAllocObject_cases h with ⟨-, h1⟩ | ⟨M1, h1, rfl⟩
  · exact H.allocated h1
  · rw [setObj_env]
    exact H.allocated h1

variable {start size : ℕ} {step : ℕ → Page → Machine σ → Option Page × Machine σ} {plan : List (ℕ × Page)}

/-- MADE: a range is its page loop. -/
theorem Inert.rangeMade {keepF1 : Bool} {n : Nodes} {ps : List Page}
    (h : RangeMade E v b f start size step plan keepF1 n ps M M') :
    ∃ M1 M2, g M1.env = g M.env ∧ pageLoop step plan M1 = (true, ps, M2) ∧ g M'.env = g M2.env := by
  obtain ⟨M1, M2, ret, m, hprep, hloop, -, -, hsplit⟩ := h
  have hnodes := H.prepareNodes hprep
  have hrest := H.splitFree hsplit
  exact ⟨withEntry M1 n start size, M2, hnodes, hloop, hrest⟩

/-- UNDONE: a range that fails has done nothing, or has unmapped what its page loop mapped. -/
theorem Inert.rangeFailed {freePhys keepF1 : Bool}
    (h : allocRange E v b f start size step plan freePhys keepF1 M = .ok (false, M')) :
    g M'.env = g M.env ∨ ∃ ok ps M1 M2 M3 M4, g M1.env = g M.env ∧ pageLoop step plan M1 = (ok, ps, M2) ∧
      g M3.env = g M2.env ∧ unmapPages E v freePhys start ps M3 = .ok M4 ∧ g M'.env = g M4.env := by
  rcases allocRange_cases h with ⟨-, hprep⟩ | ⟨n, M1, mapped, ps, M2, hprep, hloop, hcases⟩
  · exact .inl (H.prepareNodes hprep)
  have hnodes := H.prepareNodes hprep
  have hundone : ∀ {M3 : Machine σ}, Undone E v n ps start freePhys M3 M' → g M3.env = g M2.env →
      ∃ ok ps M1 M2 M3 M4, g M1.env = g M.env ∧ pageLoop step plan M1 = (ok, ps, M2) ∧
        g M3.env = g M2.env ∧ unmapPages E v freePhys start ps M3 = .ok M4 ∧ g M'.env = g M4.env := by
    rintro M3 ⟨M4, hunmap, rfl⟩ h3
    exact ⟨mapped, ps, withEntry M1 n start size, M2, M3, M4, hnodes, hloop, h3, hunmap, H.releaseNodes ..⟩
  rcases hcases with ⟨-, -, hu⟩ | ⟨-, ret, m, -, ⟨-, -, hu⟩ | ⟨-, done, M3, hsplit, ⟨-, hok, -⟩ | ⟨-, -, hu⟩⟩⟩
  · exact .inr (hundone hu rfl)
  · exact .inr (hundone hu rfl)
  · cases hok
  · have hrest := H.splitFree hsplit
    exact .inr (hundone hu hrest)

/-- MADE: an entry on an object is the page loop of `_alloc_pages`. -/
theorem Inert.entryMade {x : Entry} {r : ℕ} (h : EntryMade E v b f x e r M M') :
    ∃ M2 ret, g M2.env = g M.env ∧ entryAt M2.mem e = x ∧
      M2.obj x.object = { M.obj x.object with refs := (M.obj x.object).refs + 1 } ∧
      allocPages E v e M2 = .ok (ret, M') ∧ r = if ret < 0 then 0 else e := by
  obtain ⟨f0, f1, M1, ret, m, M2, ret', hprep, -, hsplit, hentry, hobj, hpages, hr⟩ := h
  have hnodes := H.prepareEntry hprep
  have hrest := H.splitFree hsplit
  exact ⟨M2, ret', hrest.trans hnodes, hentry, hobj, hpages, hr⟩

/-- UNDONE: an entry that fails has done nothing, or `_alloc_pages` has failed. -/
theorem Inert.entryFailed {o addr offset flags : ℕ}
    (h : allocEntryIn E v b f o addr size offset flags M = .ok (0, M')) :
    g M'.env = g M.env ∨ ∃ e M2 ret, g M2.env = g M.env ∧ allocPages E v e M2 = .ok (ret, M') := by
  rcases allocEntryIn_cases h with ⟨-, hprep⟩ | ⟨e, f0, f1, M1, ret, m, hprep, -, hcases⟩
  · exact .inl (H.prepareEntry hprep)
  have hnodes := H.prepareEntry hprep
  rcases hcases with ⟨-, -, rfl⟩ | ⟨-, done, M2, hsplit, htrue, hfalse⟩
  · rw [H.freeNode, H.freeNode, H.freeNode]
    exact .inl hnodes
  have hrest := H.splitFree hsplit
  cases done with
  | false =>
    obtain ⟨-, rfl⟩ := hfalse rfl
    rw [H.freeNode, setObj_env, H.freeNode, H.freeNode]
    exact .inl (hrest.trans hnodes)
  | true =>
    obtain ⟨ret', hpages, -⟩ := htrue rfl
    exact .inr ⟨e, M2, ret', hrest.trans hnodes, hpages⟩

end

/-! ### A record next to the environment -/

/-- What is noted of the frames and the mappings. -/
structure Recorder (α : Type) where
  /-- The frame, if there is one, with its order, zone and domain. -/
  physAlloc : α → Option ℕ → ℕ → ℕ → ℕ → α
  physFree : α → ℕ → ℕ → ℕ → ℕ → α
  /-- Whether a mapping is refused. -/
  refuse : α → ℕ → Page → Bool
  map : α → ℤ → ℕ → Page → α
  unmap : α → ℤ → ℕ → Page → α

/-- The environment together with the record. -/
def recorded (E : Env σ) (N : Recorder α) : Env (σ × α) where
  alloc s u := ((E.alloc s.1 u).1, (E.alloc s.1 u).2, s.2)
  free s u p := ((E.free s.1 u p).1, (E.free s.1 u p).2, s.2)
  physAlloc s k z d :=
    ((E.physAlloc s.1 k z d).1, (E.physAlloc s.1 k z d).2, N.physAlloc s.2 (E.physAlloc s.1 k z d).1 k z d)
  physFree s r k z d := (E.physFree s.1 r k z d, N.physFree s.2 r k z d)
  map s a x p fl :=
    if N.refuse s.2 x p then (-1, s)
    else ((E.map s.1 a x p fl).1, (E.map s.1 a x p fl).2, N.map s.2 (E.map s.1 a x p fl).1 x p)
  unmap s a x p := ((E.unmap s.1 a x p).1, (E.unmap s.1 a x p).2, N.unmap s.2 (E.unmap s.1 a x p).1 x p)
  prepare s a x n := ((E.prepare s.1 a x n).1, (E.prepare s.1 a x n).2, s.2)
  copy s a d x n := (E.copy s.1 a d x n, s.2)

theorem recorded_inert (E : Env σ) (N : Recorder α) : Inert (recorded E N) Prod.snd :=
  ⟨fun _ _ => rfl, fun _ _ _ => rfl, fun _ _ _ _ => rfl⟩

theorem recorded_lawful {E : Env σ} {v : ℕ} {live : σ → Set ℕ} (hE : Lawful E v live) (N : Recorder α) :
    Lawful (recorded E N) v fun s => live s.1 where
  alloc_none := by
    intro s u s' h
    obtain ⟨hr, rfl⟩ := Prod.mk.inj h
    exact hE.alloc_none (Prod.ext hr rfl)
  alloc_some := by
    intro s u p s' h
    obtain ⟨hr, rfl⟩ := Prod.mk.inj h
    exact hE.alloc_some (Prod.ext hr rfl)
  free s u p := hE.free s.1 u p
  physAlloc s k z d := hE.physAlloc s.1 k z d
  physFree s r k z d := hE.physFree s.1 r k z d
  map s a x p fl := by
    simp only [recorded]
    split
    · rfl
    · exact hE.map s.1 a x p fl
  unmap s a x p := hE.unmap s.1 a x p
  prepare s a x n := hE.prepare s.1 a x n
  node h := hE.node h

end Advos.Vmem
