import Advos.Schemes.Run
import Advos.Vmem.Alloc

/-! What the parts of a call can do.

    Every part is split here, once, into the cases that it has. A part that takes nodes gives them back
    in the other order when it fails, so what is known of the machine is carried along with the nodes
    that are held, the last one first:

        prepareNodes   []  [e]  [o, e]  [f0, o, e]  [f1, f0, o, e]
                           <──  <────   <────────   no node: all are freed          -/

namespace Advos.Vmem
open Word List

variable {σ : Type} {E : Env σ} {u x : ℕ} {M M' : Machine σ}

theorem kassert_eq_ok {c : Bool} {u : Unit} (h : kassert c = .ok u) : c = true := by
  rw [kassert] at h
  split at h
  · assumption
  · cases h

/-! ### Nodes -/

theorem allocNode_alloc {r : Option ℕ} (h : allocNode E u M = (r, M')) : E.alloc M.env u = (r, M'.env) := by
  rw [allocNode] at h
  split at h
  all_goals
    next hs =>
    cases h
    exact hs

theorem freeNode_free (E : Env σ) (u p : ℕ) (M : Machine σ) : (freeNode E u p M).env = (E.free M.env u p).2 := by
  rw [freeNode]
  split <;> next hs => rw [hs]

/-! ### Pages -/

section Rounds
variable {t : Page} {r : Option Page}

/-- `phys_mem_free` for the frame of a page. -/
abbrev freeFrame (E : Env σ) (s : σ) (p : Page) : σ := E.physFree s p.physical p.order p.zone p.numadomain

/-- All that a round of the loops that allocate can do: there is no node, no frame, no mapping, or a page. -/
theorem allocPage_cases (h : allocPage E u x t M = (r, M')) :
    r = none ∧ allocNode E u M = (none, M') ∨
    ∃ p M1, allocNode E u M = (some p, M1) ∧
      ((∃ s, E.physAlloc M1.env t.order t.zone t.numadomain = (none, s) ∧ r = none ∧
          M' = freeNode E u p { M1 with env := s }) ∨
        ∃ page s ret s', E.physAlloc M1.env t.order t.zone t.numadomain = (some page.physical, s) ∧
          page = { t with addr := p, physical := page.physical } ∧
          E.map s (M1.mem (u + 48)) x page (M1.mem (u + 40)) = (ret, s') ∧
          (ret < 0 ∧ r = none ∧ M' = { freeNode E u p { M1 with env := s' } with
              env := freeFrame E (freeNode E u p { M1 with env := s' }).env page } ∨
            0 ≤ ret ∧ r = some page ∧ M' = { M1 with env := s' })) := by
  rw [allocPage] at h
  split at h
  · next M1 h1 =>
    cases h
    exact .inl ⟨rfl, h1⟩
  next p M1 h1 =>
  refine .inr ⟨p, M1, h1, ?_⟩
  split at h
  · next s hs =>
    cases h
    exact .inl ⟨s, hs, rfl, rfl⟩
  next q s hs =>
  refine .inr ⟨{ t with addr := p, physical := q }, s, _, _, hs, rfl, rfl, ?_⟩
  dsimp only at h
  split at h
  · next hneg =>
    cases h
    exact .inl ⟨hneg, rfl, rfl⟩
  · next hpos =>
    cases h
    exact .inr ⟨Int.not_lt.mp hpos, rfl, rfl⟩

theorem wirePage_cases (h : wirePage E u x t M = (r, M')) :
    r = none ∧ allocNode E u M = (none, M') ∨
    ∃ p M1 ret s, allocNode E u M = (some p, M1) ∧
      E.map M1.env (M1.mem (u + 48)) x { t with addr := p } (M1.mem (u + 40)) = (ret, s) ∧
      (ret < 0 ∧ r = none ∧ M' = freeNode E u p { M1 with env := s } ∨
        0 ≤ ret ∧ r = some { t with addr := p } ∧ M' = { M1 with env := s }) := by
  rw [wirePage] at h
  split at h
  · next M1 h1 =>
    cases h
    exact .inl ⟨rfl, h1⟩
  next p M1 h1 =>
  refine .inr ⟨p, M1, _, _, h1, rfl, ?_⟩
  dsimp only at h
  split at h
  · next hneg =>
    cases h
    exact .inl ⟨hneg, rfl, rfl⟩
  · next hpos =>
    cases h
    exact .inr ⟨Int.not_lt.mp hpos, rfl, rfl⟩

variable {step : ℕ → Page → Machine σ → Option Page × Machine σ} {plan : List (ℕ × Page)} {ok : Bool} {p : Page}
  {ps : List Page}

theorem pageLoop_nil (h : pageLoop step [] M = (ok, ps, M')) : ok = true ∧ ps = [] ∧ M' = M := by
  obtain ⟨rfl, hrest⟩ := Prod.mk.inj h
  cases hrest
  exact ⟨rfl, rfl, rfl⟩

theorem pageLoop_cons (h : pageLoop step ((x, t) :: plan) M = (ok, ps, M')) :
    ok = false ∧ ps = [] ∧ step x t M = (none, M') ∨
    ∃ p qs M1, step x t M = (some p, M1) ∧ pageLoop step plan M1 = (ok, qs, M') ∧ ps = p :: qs := by
  rw [pageLoop] at h
  split at h
  · next M1 h1 =>
    obtain ⟨rfl, hrest⟩ := Prod.mk.inj h
    cases hrest
    exact .inl ⟨rfl, rfl, h1⟩
  next p M1 h1 =>
  split at h
  next ok' qs M2 h2 =>
  obtain ⟨rfl, hrest⟩ := Prod.mk.inj h
  cases hrest
  exact .inr ⟨p, qs, M1, h1, h2, rfl⟩

/-- RUN: what holds of a loop that makes no page, and is kept by a page in front, holds of every loop. -/
theorem pageLoop_rule {R : Machine σ → List Page → Machine σ → Prop} (hnil : ∀ M, R M [] M)
    (hnone : ∀ {x t M M'}, (x, t) ∈ plan → step x t M = (none, M') → R M [] M')
    (hsome : ∀ {x t p ps M M1 M'}, (x, t) ∈ plan → step x t M = (some p, M1) → R M1 ps M' → R M (p :: ps) M')
    (h : pageLoop step plan M = (ok, ps, M')) : R M ps M' := by
  induction plan generalizing M ps with
  | nil =>
    obtain ⟨-, rfl, rfl⟩ := pageLoop_nil h
    exact hnil M'
  | cons y plan ih =>
    rcases pageLoop_cons h with ⟨-, rfl, hstep⟩ | ⟨p, qs, M1, hstep, hloop, rfl⟩
    · exact hnone mem_cons_self hstep
    · refine hsome mem_cons_self hstep (ih (fun hmem => hnone ?_) (fun hmem => hsome ?_) hloop)
      · exact mem_cons_of_mem _ hmem
      · exact mem_cons_of_mem _ hmem

theorem unmapPages_cons {freePhys : Bool} (h : unmapPages E u freePhys x (p :: ps) M = .ok M') :
    ∃ s, E.unmap M.env (M.mem (u + 48)) x p = (0, s) ∧
      unmapPages E u freePhys (add64 x (4096 * 2 ^ p.order)) ps
        (freeNode E u p.addr { M with env := if freePhys then freeFrame E s p else s }) = .ok M' := by
  simp only [unmapPages] at h
  split at h
  · next hret => exact ⟨_, Prod.ext hret rfl, h⟩
  · cases h

end Rounds

/-! ### Nodes that are held -/

/-- The nodes, the last one first. -/
def Nodes.list (n : Nodes) : List ℕ := [n.f1, n.f0, n.o, n.e]

/-- A node that is allocated is held. -/
def KeptByAlloc (E : Env σ) (u : ℕ) (P : List ℕ → Machine σ → Prop) : Prop :=
  ∀ ⦃ns M r M'⦄, P ns M → allocNode E u M = (r, M') → P (r.toList ++ ns) M'

/-- The last node that is held can be freed. -/
def KeptByFree (E : Env σ) (u : ℕ) (P : List ℕ → Machine σ → Prop) : Prop :=
  ∀ ⦃p ns M⦄, P (p :: ns) M → P ns (freeNode E u p M)

/-- The calls for frames and mappings. -/
inductive Paging (E : Env σ) (s : σ) : σ → Prop
  | physAlloc {k z d r s'} : E.physAlloc s k z d = (r, s') → Paging E s s'
  | physFree {r k z d} : Paging E s (E.physFree s r k z d)
  | map {a x p fl ret s'} : E.map s a x p fl = (ret, s') → Paging E s s'
  | unmap {a x p ret s'} : E.unmap s a x p = (ret, s') → Paging E s s'

theorem Paging.eq {α : Type} {g : σ → α} {s s' : σ} (h : Paging E s s')
    (halloc : ∀ s k z d, g (E.physAlloc s k z d).2 = g s) (hfree : ∀ s r k z d, g (E.physFree s r k z d) = g s)
    (hmap : ∀ s a x p fl, g (E.map s a x p fl).2 = g s) (hunmap : ∀ s a x p, g (E.unmap s a x p).2 = g s) : g s' = g s := by
  cases h with
  | @physAlloc k z d r _ h => exact congrArg (g ·.2) h ▸ halloc s k z d
  | physFree => exact hfree ..
  | @map a x p fl ret _ h => exact congrArg (g ·.2) h ▸ hmap s a x p fl
  | @unmap a x p ret _ h => exact congrArg (g ·.2) h ▸ hunmap s a x p

/-- Frames and mappings do not matter. -/
def KeptByPaging (E : Env σ) (P : List ℕ → Machine σ → Prop) : Prop :=
  ∀ ⦃ns M s⦄, P ns M → Paging E M.env s → P ns { M with env := s }

section Held
variable {P : List ℕ → Machine σ → Prop} {ns : List ℕ}

theorem prepareNodes_rule (halloc : KeptByAlloc E u P) (hfree : KeptByFree E u P) {r : Option Nodes} (hP : P [] M)
    (h : prepareNodes E u M = (r, M')) : P (r.elim [] Nodes.list) M' := by
  rw [prepareNodes] at h
  split at h
  · next h1 =>
    cases h
    exact halloc hP h1
  next h1 =>
  have hP1 := halloc hP h1
  split at h
  · next h2 =>
    cases h
    exact hfree (halloc hP1 h2)
  next h2 =>
  have hP2 := halloc hP1 h2
  split at h
  · next h3 =>
    cases h
    exact hfree (hfree (halloc hP2 h3))
  next h3 =>
  have hP3 := halloc hP2 h3
  split at h
  · next h4 =>
    cases h
    exact hfree (hfree (hfree (halloc hP3 h4)))
  · next h4 =>
    cases h
    exact halloc hP3 h4

theorem prepareEntry_rule (halloc : KeptByAlloc E u P) (hfree : KeptByFree E u P) {r : Option (ℕ × ℕ × ℕ)}
    (hP : P [] M) (h : prepareEntry E u M = (r, M')) : P (r.elim [] fun n => [n.2.2, n.2.1, n.1]) M' := by
  rw [prepareEntry] at h
  split at h
  · next h1 =>
    cases h
    exact halloc hP h1
  next h1 =>
  have hP1 := halloc hP h1
  split at h
  · next h2 =>
    cases h
    exact hfree (halloc hP1 h2)
  next h2 =>
  have hP2 := halloc hP1 h2
  split at h
  · next h3 =>
    cases h
    exact hfree (hfree (halloc hP2 h3))
  · next h3 =>
    cases h
    exact halloc hP2 h3

theorem releaseNodes_rule (hfree : KeptByFree E u P) {n : Nodes} (hP : P (n.list ++ ns) M) :
    P ns (releaseNodes E u n M) :=
  hfree (hfree (hfree (hfree hP)))

theorem allocPage_rule (halloc : KeptByAlloc E u P) (hfree : KeptByFree E u P) (hpaging : KeptByPaging E P) {t : Page}
    {r : Option Page} (hP : P ns M) (h : allocPage E u x t M = (r, M')) : P (r.toList.map Page.addr ++ ns) M' := by
  rcases allocPage_cases h with ⟨rfl, hnode⟩ | ⟨p, M1, hnode, ⟨s, hs, rfl, rfl⟩ | ⟨page, s, ret, s', hs, hpage, hmap, hcases⟩⟩
  · exact halloc hP hnode
  · exact hfree (hpaging (halloc hP hnode) (.physAlloc hs))
  have hmapped := hpaging (hpaging (halloc hP hnode) (.physAlloc hs)) (.map hmap)
  rcases hcases with ⟨-, rfl, rfl⟩ | ⟨-, rfl, rfl⟩
  · exact hpaging (hfree hmapped) .physFree
  · rw [hpage]
    exact hmapped

theorem wirePage_rule (halloc : KeptByAlloc E u P) (hfree : KeptByFree E u P) (hpaging : KeptByPaging E P) {t : Page}
    {r : Option Page} (hP : P ns M) (h : wirePage E u x t M = (r, M')) : P (r.toList.map Page.addr ++ ns) M' := by
  rcases wirePage_cases h with ⟨rfl, hnode⟩ | ⟨p, M1, ret, s, hnode, hmap, hcases⟩
  · exact halloc hP hnode
  have hmapped := hpaging (halloc hP hnode) (.map hmap)
  rcases hcases with ⟨-, rfl, rfl⟩ | ⟨-, rfl, rfl⟩
  · exact hfree hmapped
  · exact hmapped

/-- RUN: the unwinding frees the nodes of the pages. -/
theorem unmapPages_rule (hfree : KeptByFree E u P) (hpaging : KeptByPaging E P) {freePhys : Bool} {ps : List Page}
    (hP : P (ps.map Page.addr ++ ns) M) (h : unmapPages E u freePhys x ps M = .ok M') : P ns M' := by
  induction ps generalizing x M with
  | nil =>
    cases h
    exact hP
  | cons p ps ih =>
    obtain ⟨s, hs, h⟩ := unmapPages_cons h
    have hunmapped := hpaging hP (.unmap hs)
    refine ih (hfree ?_) h
    cases freePhys with
    | false => exact hunmapped
    | true => exact hpaging (M := { M with env := s }) hunmapped .physFree

/-- RUN: `_pages_free` frees the nodes of the pages. -/
theorem pagesFree_rule (hfree : KeptByFree E u P) (hpaging : KeptByPaging E P) {ps : List Page}
    (hP : P (ps.map Page.addr ++ ns) M) : P ns (pagesFree E u ps M) := by
  induction ps generalizing M with
  | nil => exact hP
  | cons p ps ih => exact ih (hfree (hpaging hP .physFree))

end Held

/-! ### Blocks and objects -/

/-- Memory with the new block `n` at the pointer `c`. -/
def linkAt (m : Mem) (n c : ℕ) : Mem := set (set m (n + 16) (m c)) c n

/-- All that `virt_memory_block_add` can do: the second node, `ifs.prepare` or the place in the list may be
    refused. -/
theorem virtMemoryBlockAdd_cases {start fin n : ℕ} (h : virtMemoryBlockAdd E u start fin M = .ok (n, M')) :
    n = 0 ∧ allocNode E u M = (none, M') ∨
    ∃ b M1, allocNode E u M = (some b, M1) ∧
      (n = 0 ∧ (∃ M2, allocNode E u M1 = (none, M2) ∧ M' = freeNode E u b M2) ∨
        ∃ fr M2 ret s, allocNode E u M1 = (some fr, M2) ∧
          E.prepare M2.env (setBlock M2.mem b fr start fin (u + 48)) start (add64 (sub64 fin start) 1) = (ret, s) ∧
          (n = 0 ∧ M' = freeNode E u b (freeNode E u fr ⟨setBlock M2.mem b fr start fin, M2.obj, s⟩) ∨
            n = b ∧ ∃ c, insertPoint (setBlock M2.mem b fr start fin) b fuel (u + 8) = .ok (some c) ∧
              M' = ⟨linkAt (setBlock M2.mem b fr start fin) b c, M2.obj, s⟩)) := by
  rw [virtMemoryBlockAdd] at h
  split at h
  · next M1 h1 =>
    cases h
    exact .inl ⟨rfl, h1⟩
  next b M1 h1 =>
  refine .inr ⟨b, M1, h1, ?_⟩
  split at h
  · next M2 h2 =>
    cases h
    exact .inl ⟨rfl, M2, h2, rfl⟩
  next fr M2 h2 =>
  refine .inr ⟨fr, M2, _, _, h2, rfl, ?_⟩
  dsimp only at h
  split at h
  · cases h
    exact .inl ⟨rfl, rfl⟩
  obtain ⟨⟨ret, m⟩, hinsert, h⟩ := returned h
  rw [blockInsert] at hinsert
  obtain ⟨found, hfound, hinsert⟩ := returned hinsert
  cases found with
  | none =>
    cases hinsert
    cases h
    exact .inl ⟨rfl, rfl⟩
  | some c =>
    cases hinsert
    cases h
    exact .inr ⟨rfl, c, hfound, rfl⟩

theorem virtMemoryAllocObject_cases {size o : ℕ} (h : virtMemoryAllocObject E u size M = (o, M')) :
    o = 0 ∧ allocNode E u M = (none, M') ∨
    ∃ M1, allocNode E u M = (some o, M1) ∧ M' = setObj M1 o ⟨[], size, 0⟩ := by
  rw [virtMemoryAllocObject] at h
  split at h
  · next h1 =>
    cases h
    exact .inl ⟨rfl, h1⟩
  · next h1 =>
    cases h
    exact .inr ⟨_, h1, rfl⟩

/-! ### Free intervals -/

section Frees
variable {b e f f0 f1 : ℕ}

/-- The structures that a split does not use go back, with that of the interval it has split. -/
def giveBack (E : Env σ) (u f f0 f1 : ℕ) (used : List ℕ) (keep : Bool) (M : Machine σ) : Machine σ :=
  let M := if f0 ∈ used then M else freeNode E u f0 M
  let M := if f1 ∈ used ∨ keep then M else freeNode E u f1 M
  freeNode E u f M

theorem splitFree_cases {keepF1 done : Bool} (h : splitFree E u b e f f0 f1 keepF1 M = .ok (done, M')) :
    ∃ f' m used m', freeDelete b f M.mem = .ok (f', m) ∧ addRest b e f' f0 f1 m = .ok (used, m') ∧
      (used = none ∧ done = false ∧ M' = { M with mem := m' } ∨
        ∃ us, used = some us ∧ done = true ∧
          M' = giveBack E u f' f0 f1 us (keepF1 ∧ m f' = m e ∧ m (f' + 8) ≠ m (e + 8)) { M with mem := m' }) := by
  rw [splitFree] at h
  obtain ⟨⟨f', m⟩, hdel, h⟩ := returned h
  obtain ⟨-, -, h⟩ := returned h
  obtain ⟨⟨used, m'⟩, hadd, h⟩ := returned h
  refine ⟨f', m, used, m', hdel, hadd, ?_⟩
  cases used with
  | none =>
    cases h
    exact .inl ⟨rfl, rfl, rfl⟩
  | some us =>
    cases h
    refine .inr ⟨us, rfl, rfl, ?_⟩
    simp only [giveBack, decide_eq_true_eq]

/-- All that `_entry_free` can do: the range becomes a free interval, or joins `f` and its node goes back. -/
theorem entryFree_cases (h : entryFree E u b e M = .ok M') :
    ∃ found, findNeighborFreeEntry b (M.mem e) (add64 (M.mem e) (M.mem (e + 8))) M.mem = .ok found ∧
      (found = none ∧ (∃ ret m, freeAdd b e (interval (clear M.mem e) e (M.mem e) (M.mem (e + 8))) = .ok (ret, m) ∧
          M' = { M with mem := m }) ∨
        ∃ f r m1 m2 m, found = some f ∧ freeDelete b f M.mem = .ok (r, m1) ∧
          m2 = (if m1 f = add64 (M.mem e) (M.mem (e + 8))
            then interval m1 f (M.mem e) (add64 (m1 (f + 8)) (M.mem (e + 8)))
            else set m1 (f + 8) (add64 (m1 (f + 8)) (M.mem (e + 8)))) ∧
          freeAdd b f (freeNode E u e { M with mem := m2 }).mem = .ok (0, m) ∧
          M' = { freeNode E u e { M with mem := m2 } with mem := m }) := by
  rw [entryFree] at h
  obtain ⟨found, hfound, h⟩ := returned h
  refine ⟨found, hfound, ?_⟩
  cases found with
  | none =>
    obtain ⟨⟨ret, m⟩, hadd, h⟩ := returned h
    cases h
    exact .inl ⟨rfl, ret, m, hadd, rfl⟩
  | some f =>
    obtain ⟨⟨r, m1⟩, hdel, h⟩ := returned h
    obtain ⟨-, -, h⟩ := returned h
    obtain ⟨⟨ret, m⟩, hadd, h⟩ := returned h
    obtain ⟨_, hret, h⟩ := returned h
    obtain rfl : ret = 0 := of_decide_eq_true (kassert_eq_ok hret)
    cases h
    exact .inr ⟨f, r, m1, _, m, rfl, hdel, rfl, hadd, rfl⟩

theorem freeEntry_cases (h : freeEntry E u b e M = .ok M') :
    ∃ m, entryDelete b e (freeNode E u (M.mem (e + 16)) (pagesFree E u (M.obj (M.mem (e + 16))).pages M)).mem =
        .ok (some e, m) ∧
      entryFree E u b e { freeNode E u (M.mem (e + 16)) (pagesFree E u (M.obj (M.mem (e + 16))).pages M) with mem := m } =
        .ok M' := by
  rw [freeEntry] at h
  obtain ⟨⟨r, m⟩, hdel, h1⟩ := returned h
  obtain ⟨_, hr, h2⟩ := returned h1
  obtain rfl : r = some e := of_decide_eq_true (kassert_eq_ok hr)
  exact ⟨m, hdel, h2⟩

end Frees

end Advos.Vmem
