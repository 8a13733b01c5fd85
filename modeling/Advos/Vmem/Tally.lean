import Advos.Vmem.Effects
import Mathlib.Algebra.BigOperators.Group.List.Basic
import Mathlib.Tactic.Abel

/-! How many nodes are out.

    A tally next to the allocator goes up when a node is taken and down when one is returned. Its values
    are those of any commutative group, so that it can be one number, or one number for every node:

        prepareNodes    + e + o + f0 + f1
        pageLoop        + pages
        splitFree       - f - (f0, f1 that are not used)
        unmapPages      - pages
        releaseNodes    - f1 - f0 - o - e

    What fails adds up to nothing. A range that is made keeps its entry, its object, its pages and what is
    left over of `f`; two of the callers keep `f1` as well, when it is not used. -/

namespace Advos.Vmem
open List

variable {σ G : Type} [AddCommGroup G]

/-- `w` changes by `one p` when the node `p` is taken or returned. -/
structure Counts (E : Env σ) (w : σ → G) (one : ℕ → G) : Prop where
  alloc : ∀ s u, w (E.alloc s u).2 = w s + (E.alloc s u).1.elim 0 one
  free : ∀ s u p, w (E.free s u p).2 = w s - one p
  physAlloc : ∀ s k z d, w (E.physAlloc s k z d).2 = w s
  physFree : ∀ s r k z d, w (E.physFree s r k z d) = w s
  map : ∀ s a x p fl, w (E.map s a x p fl).2 = w s
  unmap : ∀ s a x p, w (E.unmap s a x p).2 = w s
  prepare : ∀ s a x n, w (E.prepare s a x n).2 = w s

/-- The environment with a tally. -/
def tallied (E : Env σ) (one : ℕ → G) : Env (σ × G) where
  alloc s u := ((E.alloc s.1 u).1, (E.alloc s.1 u).2, s.2 + (E.alloc s.1 u).1.elim 0 one)
  free s u p := ((E.free s.1 u p).1, (E.free s.1 u p).2, s.2 - one p)
  physAlloc s k z d := ((E.physAlloc s.1 k z d).1, (E.physAlloc s.1 k z d).2, s.2)
  physFree s r k z d := (E.physFree s.1 r k z d, s.2)
  map s a x p fl := ((E.map s.1 a x p fl).1, (E.map s.1 a x p fl).2, s.2)
  unmap s a x p := ((E.unmap s.1 a x p).1, (E.unmap s.1 a x p).2, s.2)
  prepare s a x n := ((E.prepare s.1 a x n).1, (E.prepare s.1 a x n).2, s.2)
  copy s a d x n := (E.copy s.1 a d x n, s.2)

theorem tallied_counts (E : Env σ) (one : ℕ → G) : Counts (tallied E one) Prod.snd one :=
  ⟨fun _ _ => rfl, fun _ _ _ => rfl, fun _ _ _ _ => rfl, fun _ _ _ _ _ => rfl, fun _ _ _ _ _ => rfl,
    fun _ _ _ _ => rfl, fun _ _ _ _ => rfl⟩

theorem tallied_lawful {E : Env σ} {v : ℕ} {live : σ → Set ℕ} (hE : Lawful E v live) (one : ℕ → G) :
    Lawful (tallied E one) v fun s => live s.1 where
  alloc_none := by
    intro s u s' h
    obtain ⟨hr, rfl⟩ := Prod.mk.inj h
    exact hE.alloc_none (Prod.ext hr rfl)
  alloc_some := by
    intro s u p s' h
    obtain ⟨hr, rfl⟩ := Prod.mk.inj h
    exact hE.alloc_some (Prod.ext hr rfl)
  free s u p := hE.free s.1 u p
  physAlloc s k z d := hE.physAlloc s.1 k z d
  physFree s r k z d := hE.physFree s.1 r k z d
  map s a x p fl := hE.map s.1 a x p fl
  unmap s a x p := hE.unmap s.1 a x p
  prepare s a x n := hE.prepare s.1 a x n
  node h := hE.node h

/-- The nodes of some pages. -/
def pageNodes (one : ℕ → G) (ps : List Page) : G := (ps.map fun p => one p.addr).sum

@[simp] theorem pageNodes_nil (one : ℕ → G) : pageNodes one [] = 0 := rfl

@[simp] theorem pageNodes_cons (one : ℕ → G) (p : Page) (ps : List Page) :
    pageNodes one (p :: ps) = one p.addr + pageNodes one ps := by
  simp [pageNodes]

/-- The nodes of an allocation. -/
def Nodes.sum (one : ℕ → G) (n : Nodes) : G := one n.e + one n.o + one n.f0 + one n.f1

/-! ### Trees -/

section Trees
variable {E : Env σ} {v b e f f0 f1 : ℕ} {M M' : Machine σ}

theorem splitFree_false_env {keepF1 : Bool} (h : splitFree E v b e f f0 f1 keepF1 M = .ok (false, M')) :
    M'.env = M.env := by
  obtain ⟨f', m, used, m', -, -, ⟨-, -, rfl⟩ | ⟨us, -, hdone, -⟩⟩ := splitFree_cases h
  · rfl
  · cases hdone

theorem addRest_used {m m' : Mem} {us : List ℕ} (h : addRest b e f f0 f1 m = .ok (some us, m')) :
    us = [f0, f1].take (rest (span m f) (span m e)).length := by
  rcases addRest_cases h with ⟨hrest, hused, -⟩ | ⟨r, ret, m1, hrest, -, ⟨-, hused⟩ | ⟨-, hused, -⟩⟩ |
    ⟨r, r', ret, m1, hrest, -, ⟨-, hused⟩ | ⟨-, ret', m2, -, ⟨-, hused⟩ | ⟨-, hused, -⟩⟩⟩
  all_goals cases hused
  all_goals
    rw [hrest]
    rfl

end Trees

section
variable {E : Env σ} {w : σ → G} {one : ℕ → G} (H : Counts E w one) {v b e f f0 f1 : ℕ} {M M' : Machine σ}
include H

/-! ### Nodes -/

theorem Counts.allocNode {r : Option ℕ} (h : allocNode E v M = (r, M')) : w M'.env = w M.env + r.elim 0 one := by
  have hcount := H.alloc M.env v
  rwa [allocNode_alloc h] at hcount

theorem Counts.freeNode (v p : ℕ) (M : Machine σ) : w (freeNode E v p M).env = w M.env - one p := by
  rw [freeNode_free]
  exact H.free M.env v p

omit H in
/-- The tally is `c` without the nodes `ns`. -/
def Counted (w : σ → G) (one : ℕ → G) (c : G) (ns : List ℕ) (M : Machine σ) : Prop := w M.env = c + (ns.map one).sum

theorem Counts.keptByAlloc (c : G) : KeptByAlloc E v (Counted w one c) := by
  intro ns M r M' h halloc
  rw [Counted, H.allocNode halloc, h]
  cases r with
  | none => simp
  | some p =>
    simp only [Option.elim_some, Option.toList_some, singleton_append, map_cons, sum_cons]
    abel

theorem Counts.keptByFree (c : G) : KeptByFree E v (Counted w one c) := by
  intro p ns M h
  rw [Counted, H.freeNode, h, map_cons, sum_cons]
  abel

theorem Counts.paging {s s' : σ} (h : Paging E s s') : w s' = w s :=
  h.eq H.physAlloc H.physFree H.map H.unmap

theorem Counts.keptByPaging (c : G) : KeptByPaging E (Counted w one c) :=
  fun _ _ _ h hs => (H.paging hs).trans h

theorem Counts.prepareNodes {r : Option Nodes} (h : prepareNodes E v M = (r, M')) :
    w M'.env = w M.env + r.elim 0 (Nodes.sum one) := by
  have hstart : Counted w one (w M.env) [] M := by simp [Counted]
  rw [prepareNodes_rule (H.keptByAlloc _) (H.keptByFree _) hstart h]
  cases r with
  | none => simp
  | some n =>
    simp only [Option.elim_some, Nodes.list, Nodes.sum, map_cons, map_nil, sum_cons, sum_nil]
    abel

theorem Counts.releaseNodes (v : ℕ) (n : Nodes) (M : Machine σ) :
    w (releaseNodes E v n M).env = w M.env - n.sum one := by
  rw [Vmem.releaseNodes, H.freeNode, H.freeNode, H.freeNode, H.freeNode, Nodes.sum]
  abel

/-! ### Pages -/

omit H in
/-- A round of a page loop takes the node of the page it makes. -/
def CountsPage (w : σ → G) (one : ℕ → G) (step : ℕ → Page → Machine σ → Option Page × Machine σ) : Prop :=
  ∀ {x t M r M'}, step x t M = (r, M') → w M'.env = w M.env + pageNodes one r.toList

omit H in
theorem counted_pages {c : G} {ps : List Page} : Counted w one c (ps.map Page.addr ++ []) M ↔ w M.env = c + pageNodes one ps := by
  simp only [Counted, pageNodes, append_nil, map_map, Function.comp_def]

theorem Counts.allocPage (v : ℕ) : CountsPage w one (allocPage E v) := by
  intro x t M r M' h
  have hstart : Counted w one (w M.env) [] M := by simp [Counted]
  exact counted_pages.mp (allocPage_rule (H.keptByAlloc _) (H.keptByFree _) (H.keptByPaging _) hstart h)

theorem Counts.wirePage (v : ℕ) : CountsPage w one (wirePage E v) := by
  intro x t M r M' h
  have hstart : Counted w one (w M.env) [] M := by simp [Counted]
  exact counted_pages.mp (wirePage_rule (H.keptByAlloc _) (H.keptByFree _) (H.keptByPaging _) hstart h)

omit H in
theorem CountsPage.pageLoop {step : ℕ → Page → Machine σ → Option Page × Machine σ} (hstep : CountsPage w one step)
    {plan : List (ℕ × Page)} {ok : Bool} {ps : List Page} (h : pageLoop step plan M = (ok, ps, M')) :
    w M'.env = w M.env + pageNodes one ps := by
  refine pageLoop_rule (R := fun M ps M' => w M'.env = w M.env + pageNodes one ps) ?_ ?_ ?_ h
  · simp
  · exact fun _ hnone => hstep hnone
  · intro x t p ps M M1 M' _ hsome hrest
    rw [hrest, hstep hsome]
    simp [add_assoc]

theorem Counts.unmapPages {x : ℕ} {freePhys : Bool} {ps : List Page}
    (h : unmapPages E v freePhys x ps M = .ok M') : w M'.env = w M.env - pageNodes one ps := by
  have hheld : Counted w one (w M.env - pageNodes one ps) (ps.map Page.addr ++ []) M :=
    counted_pages.mpr (sub_add_cancel ..).symm
  simpa [Counted] using unmapPages_rule (H.keptByFree _) (H.keptByPaging _) hheld h

theorem Counts.pagesFree (v : ℕ) (ps : List Page) (M : Machine σ) :
    w (pagesFree E v ps M).env = w M.env - pageNodes one ps := by
  have hheld : Counted w one (w M.env - pageNodes one ps) (ps.map Page.addr ++ []) M :=
    counted_pages.mpr (sub_add_cancel ..).symm
  simpa [Counted] using pagesFree_rule (H.keptByFree _) (H.keptByPaging _) hheld

/-! ### Calls -/

theorem Counts.blockAdd {start fin n : ℕ} (h : virtMemoryBlockAdd E v start fin M = .ok (n, M')) :
    n = 0 ∧ w M'.env = w M.env ∨
      ∃ fr M1, Vmem.allocNode E v M = (some n, M1) ∧ w M'.env = w M.env + one n + one fr := by
  rcases virtMemoryBlockAdd_cases h with ⟨rfl, h1⟩ | ⟨b, M1, h1, ⟨rfl, M2, h2, rfl⟩ | ⟨fr, M2, ret, s, h2, hprep, hcases⟩⟩
  · exact .inl ⟨rfl, by rw [H.allocNode h1]; simp⟩
  · exact .inl ⟨rfl, by rw [H.freeNode, H.allocNode h2, H.allocNode h1]; simp⟩
  have hs := H.prepare M2.env (setBlock M2.mem b fr start fin (v + 48)) start (Word.add64 (Word.sub64 fin start) 1)
  rw [hprep, H.allocNode h2, H.allocNode h1] at hs
  rcases hcases with ⟨rfl, rfl⟩ | ⟨rfl, c, -, rfl⟩
  · refine .inl ⟨rfl, ?_⟩
    rw [H.freeNode, H.freeNode]
    dsimp only at hs ⊢
    rw [hs, Option.elim_some, Option.elim_some]
    abel
  · exact .inr ⟨fr, M1, h1, hs⟩

theorem Counts.allocObject {size o : ℕ} (h : virtMemoryAllocObject E v size M = (o, M')) :
    o = 0 ∧ w M'.env = w M.env ∨ ∃ M1, Vmem.allocNode E v M = (some o, M1) ∧ w M'.env = w M.env + one o := by
  rcases virtMemoryAllocObject_cases h with ⟨rfl, h1⟩ | ⟨M1, h1, rfl⟩
  · exact .inl ⟨rfl, by rw [H.allocNode h1]; simp⟩
  · exact .inr ⟨M1, h1, H.allocNode h1⟩

section Range
variable {start size : ℕ} {step : ℕ → Page → Machine σ → Option Page × Machine σ} {plan : List (ℕ × Page)}

/-- UNDONE: a range that fails returns every node that it took. -/
theorem Counts.rangeFailed {freePhys keepF1 : Bool} (hstep : CountsPage w one step)
    (h : allocRange E v b f start size step plan freePhys keepF1 M = .ok (false, M')) : w M'.env = w M.env := by
  rcases allocRange_cases h with ⟨-, hprep⟩ | ⟨n, M1, mapped, ps, M2, hprep, hloop, hcases⟩
  · rw [H.prepareNodes hprep]
    simp
  have hpages : w M2.env = w M.env + n.sum one + pageNodes one ps := by
    rw [hstep.pageLoop hloop]
    exact congrArg (· + pageNodes one ps) (H.prepareNodes hprep)
  have hundone : ∀ {M3 : Machine σ}, Undone E v n ps start freePhys M3 M' → w M3.env = w M2.env → w M'.env = w M.env := by
    rintro M3 ⟨M4, hunmap, rfl⟩ h3
    rw [H.releaseNodes, H.unmapPages hunmap, h3, hpages]
    abel
  rcases hcases with ⟨-, -, hu⟩ | ⟨-, ret, m, -, ⟨-, -, hu⟩ | ⟨-, done, M3, hsplit, ⟨-, hok, -⟩ | ⟨rfl, -, hu⟩⟩⟩
  · exact hundone hu rfl
  · exact hundone hu rfl
  · cases hok
  · exact hundone hu (by rw [splitFree_false_env hsplit]; rfl)

end Range

end

/-! ### One number -/

section Number
variable {E : Env σ} {w : σ → ℤ} (H : Counts E w fun _ => 1) {v b e f f0 f1 : ℕ} {M M' : Machine σ}

@[simp] theorem pageNodes_one (ps : List Page) : pageNodes (fun _ => (1 : ℤ)) ps = ps.length := by
  simp [pageNodes]

/-- Two of the callers keep `f1` when the range is at the start of `f` and does not fill it. -/
def keeps (keepF1 : Bool) (f e : ℕ × ℕ) : ℤ := if keepF1 ∧ f.1 = e.1 ∧ f.2 ≠ e.2 then 1 else 0

include H in
/-- A split returns `f` and those of `f0` and `f1` that it does not use or keep. -/
theorem Counts.splitFree_true {keepF1 : Bool} (h01 : f0 ≠ f1) (h : splitFree E v b e f f0 f1 keepF1 M = .ok (true, M')) :
    ∃ f' m, freeDelete b f M.mem = .ok (f', m) ∧
      w M'.env + 3 = w M.env + (rest (span m f') (span m e)).length + keeps keepF1 (span m f') (span m e) := by
  obtain ⟨f', m, used, m', hdel, hadd, ⟨-, hdone, -⟩ | ⟨us, rfl, -, rfl⟩⟩ := splitFree_cases h
  · cases hdone
  refine ⟨f', m, hdel, ?_⟩
  have hus := addRest_used hadd
  rw [giveBack, H.freeNode]
  have hlen : (rest (span m f') (span m e)).length ≤ 2 := by
    rw [rest]
    split_ifs <;> simp
  -- `f1` is kept only where one part is left over, and that is in `f0`
  have hone : (keepF1 ∧ m f' = m e ∧ m (f' + 8) ≠ m (e + 8)) → (rest (span m f') (span m e)).length = 1 := by
    rintro ⟨-, hstart, hsize⟩
    have hsame : (span m f').1 = (span m e).1 := hstart
    rw [rest, if_neg fun h => hsize h.2, if_pos hsame]
    rfl
  have hkeeps : keeps keepF1 (span m f') (span m e) =
      if keepF1 ∧ m f' = m e ∧ m (f' + 8) ≠ m (e + 8) then 1 else 0 := rfl
  rw [hkeeps]
  generalize (rest (span m f') (span m e)).length = k at hus hlen hone ⊢
  by_cases hc : keepF1 ∧ m f' = m e ∧ m (f' + 8) ≠ m (e + 8)
  · obtain rfl := hone hc
    simp [hus, hc]
    omega
  · obtain rfl | rfl | rfl : k = 0 ∨ k = 1 ∨ k = 2 := by omega
    · simp [hus, hc, H.freeNode]
      omega
    · simp [hus, hc, H.freeNode, Ne.symm h01]
      omega
    · simp [hus, hc]
      omega

include H in
/-- MADE: a range takes its entry, its object, its pages and what is left over of `f`, and returns `f`. -/
theorem Counts.rangeMade {live : σ → Set ℕ} {t : Forest} {start size : ℕ} {keepF1 : Bool} {n : Nodes} {ps : List Page}
    {step : ℕ → Page → Machine σ → Option Page × Machine σ} {plan : List (ℕ × Page)} (hE : Lawful E v live)
    (hspec : MakesPage v live step) (hstep : CountsPage w (fun _ => 1) step) (B : Block live M b t)
    (hf : f ∈ t.a.inorder) (h : RangeMade E v b f start size step plan keepF1 n ps M M') :
    w M'.env = w M.env + 1 + ps.length + (rest (span M.mem f) (start, size)).length +
      keeps keepF1 (span M.mem f) (start, size) := by
  obtain ⟨M1, M2, ret, m, hprep, hloop, hadd, hret, hsplit⟩ := h
  obtain ⟨htake, hentry⟩ := pages_made hE hspec hprep hloop
  have hmem : ∀ p ∈ n.list, p ∈ ps.map Page.addr ++ n.list := fun p hp => mem_append_right _ hp
  have h01 : n.f0 ≠ n.f1 := by
    have hnd := (nodup_append.mp htake.nodup).2.1
    rintro heq
    simp [Nodes.list, heq] at hnd
  obtain ⟨Te', B1, hp, hse, hsf⟩ := entryAdd_block hE B htake id (fun _ _ => id) (hmem _ (by simp [Nodes.list]))
    hadd hret
  have hspan : span m n.e = (start, size) := hse.trans (span_eq_of_entryAt hentry)
  obtain ⟨f', m', hdel, hcount⟩ := H.splitFree_true h01 hsplit
  obtain ⟨rfl, -, -, -, -, -, hmoves⟩ := B1.freeDelete_ok hE hf hdel
  have hke : span m' n.e = (start, size) :=
    (hmoves.keptE.span_eq (by decide) (hp.mem_iff.mpr mem_cons_self)).trans hspan
  have hkf : span m' f' = span M.mem f' := (hmoves.keptA.span_eq (by decide) hf).trans (hsf f' hf)
  rw [hke, hkf] at hcount
  have hloop' := hstep.pageLoop hloop
  have hprep' := H.prepareNodes hprep
  simp only [pageNodes_one, withEntry, setObj_env, Option.elim_some, Nodes.sum] at hloop' hprep' hcount
  omega

end Number

end Advos.Vmem
