import Advos.Vmem.Ranges

/-! What is left by an allocation that fails, and allocation on an object that is there.

    An allocation gives up before it has touched the block, or when the entry is refused, or when a
    part that is left over is. The last happens only to a part that starts at address 0, so where
    there is none a call that fails leaves the block as it was. `virt_memory_alloc_entry` has one more
    way to fail: the entry stays when there are no pages for it. -/

namespace Advos.Vmem
open SearchTree Function List

variable {σ : Type} {E : Env σ} {v b f e f0 f1 start size : ℕ} {live : σ → Set ℕ} {W : ℕ → Prop}
  {M M₁ M' : Machine σ} {t : Forest} {keepF1 : Bool} {ns : List ℕ}

/-! ### Giving up -/

section
variable (hE : Lawful E v live) (B : Block live M b t)
include hE B

/-- The entry is refused: the block has its trees, and what was taken is released. -/
theorem refused_same (htake : Takes v live M ns M₁) (he : e ∈ ns) {ret : ℤ} {m : Mem}
    (hadd : entryAdd b e M₁.mem = .ok (ret, m)) (hneg : ret < 0)
    (hw' : Within v live (· ∈ ns) { M₁ with mem := m } M') : Same v live b t M M' := by
  have hnew : ∀ p ∈ live M.env, p ∉ ns := fun p hp hmem => (htake.new p hmem).1 hp
  have hb := hnew b B.home.block
  have ht : ∀ s ∈ t.nodes, s ∉ ns := fun s hs => hnew s (B.home.nodes s hs)
  obtain ⟨-, hbad, hmoves⟩ := (B.grows htake.within).entryAdd_ok hE (Holding.spare htake B he) hadd
  have B1 := hbad hneg
  refine Moves.same ?_ (B1.within hw' hb ht)
  refine (((B.moves htake.within id fun _ _ => id).mono (fun _ => id) (fun _ => id) fun _ _ hf => hf.elim).trans hmoves
    (fun _ => id) (fun s hs => mem_cons_of_mem _ hs) fun p hp hW => ?_).trans (B1.moves hw' hb ht)
    (fun _ => id) (fun _ => id) fun p hp hW => absurd hW (hnew p hp)
  rcases mem_cons.mp hW with rfl | hW
  · exact absurd he (hnew p hp)
  · exact .inr (mem_append_right _ hW)

/-- An entry that is added is in the block; it and the free intervals have their places. -/
theorem entryAdd_block {ret : ℤ} {m : Mem} (hhold : Holding v live W M ns M₁) (hWb : ¬W b)
    (hWt : ∀ s ∈ t.nodes, ¬W s) (he : e ∈ ns) (hadd : entryAdd b e M₁.mem = .ok (ret, m)) (hret : ¬ret < 0) :
    ∃ Te', Block live { M₁ with mem := m } b ⟨t.a, t.s, Te'⟩ ∧ Te'.inorder.Perm (e :: t.e.inorder) ∧
      span m e = span M₁.mem e ∧ ∀ f ∈ t.a.inorder, span m f = span M.mem f := by
  obtain ⟨hok, -, hmoves⟩ := (B.within hhold.within hWb hWt).entryAdd_ok hE (hhold.spare B he) hadd
  obtain ⟨Te, B1, hp⟩ := hok hret
  have hk := (B.moves hhold.within hWb hWt).keptA.trans hmoves.keptA
  exact ⟨Te, B1, hp, hmoves.keptE.span_eq (by decide) mem_cons_self, fun f hf => hk.span_eq (by decide) hf⟩

theorem split_done {a : ℕ × ℕ} (hhold : Holding v live W M ns M₁) (hWb : ¬W b) (hWt : ∀ s ∈ t.nodes, ¬W s)
    (hns : [f1, f0, e].Sublist ns) (hf : f ∈ t.a.inorder) (hspan : span M₁.mem e = a)
    (hrest : ∀ r ∈ rest (span M.mem f) a, 64 ∣ r.1 ∧ r.1 ≠ 0) {ret : ℤ} {m : Mem}
    (hadd : entryAdd b e M₁.mem = .ok (ret, m)) (hret : ¬ret < 0) {done : Bool}
    (hsplit : splitFree E v b e f f0 f1 keepF1 { M₁ with mem := m } = .ok (done, M')) : done = true := by
  have hspare : ∀ p ∈ [f1, f0, e], Spare live M₁ b t.nodes p := fun p hp => hhold.spare B (hns.subset hp)
  have hnd := hhold.nodup.sublist hns
  simp only [nodup_cons, mem_cons, not_mem_nil, or_false, not_or] at hnd
  obtain ⟨⟨h10, h1e⟩, h0e, -⟩ := hnd
  obtain ⟨Te', B1, hp, hse, hsf⟩ := entryAdd_block hE B hhold hWb hWt (hns.subset (by simp)) hadd hret
  cases done with
  | true => rfl
  | false =>
    refine absurd hsplit (B1.split_ne_false hE hf (hp.mem_iff.mpr mem_cons_self)
      ((hspare f0 (by simp)).added h0e hp) ((hspare f1 (by simp)).added h1e hp) (Ne.symm h10) ?_)
    rw [hsf f hf, hse, hspan]
    exact hrest

end

section Range
variable {step : ℕ → Page → Machine σ → Option Page × Machine σ} {plan : List (ℕ × Page)} {freePhys : Bool}

/-- The split after the entry of a range is added works, if no part left over would start at address 0. -/
theorem range_split_done {n : Nodes} {ps : List Page} {M₂ M3 : Machine σ} {mapped done : Bool} {ret : ℤ} {m : Mem}
    (hE : Lawful E v live) (hstep : MakesPage v live step) (B : Block live M b t)
    (hf : f ∈ t.a.inorder) (hrest : ∀ r ∈ rest (span M.mem f) (start, size), 64 ∣ r.1 ∧ r.1 ≠ 0)
    (hprep : prepareNodes E v M = (some n, M₁))
    (hloop : pageLoop step plan (withEntry M₁ n start size) = (mapped, ps, M₂))
    (hadd : entryAdd b n.e M₂.mem = .ok (ret, m)) (hret : ¬ret < 0)
    (hsplit : splitFree E v b n.e f n.f0 n.f1 keepF1 { setObj M₂ n.o ⟨ps, size, 1⟩ with mem := m } = .ok (done, M3)) :
    done = true := by
  obtain ⟨htake, hentry⟩ := pages_made hE hstep hprep hloop
  have hsub : [n.f1, n.f0, n.e].Sublist (ps.map Page.addr ++ n.list) :=
    ((((List.Sublist.refl [n.e]).cons n.o).cons_cons n.f0).cons_cons n.f1).trans (sublist_append_right _ _)
  exact split_done hE B htake id (fun _ _ => id) hsub hf (span_eq_of_entryAt hentry) hrest hadd hret hsplit

/-- A failed allocation leaves the block as it was, if no part left over would start at address 0. -/
theorem allocRange_false (hE : Lawful E v live) (hstep : MakesPage v live step) (B : Block live M b t)
    (hf : f ∈ t.a.inorder) (hrest : ∀ r ∈ rest (span M.mem f) (start, size), 64 ∣ r.1 ∧ r.1 ≠ 0)
    (h : allocRange E v b f start size step plan freePhys keepF1 M = .ok (false, M')) :
    Same v live b t M M' := by
  rcases allocRange_cases h with ⟨-, hprep⟩ | ⟨n, M₁, mapped, ps, M₂, hprep, hloop, hcases⟩
  · exact B.same (prepareNodes_spec hE hprep).within
  obtain ⟨htake, hentry⟩ := pages_made hE hstep hprep hloop
  have hnew := htake.new
  have hnode : ∀ p ∈ ps.map Page.addr ++ n.list, NodeAt v p := fun p hp => hE.node (hnew p hp).2
  rcases hcases with ⟨-, -, hundone⟩ | ⟨-, ret, m, hadd, hcases⟩
  · exact B.same (htake.within.trans (hundone.within hE hnode) fun p hp hW => (hnew p hW).1 hp)
  rcases hcases with ⟨hneg, -, hundone⟩ | ⟨hret, done, M3, hsplit, hcases⟩
  · have hmem : n.e ∈ ps.map Page.addr ++ n.list := mem_append_right _ (by simp [Nodes.list])
    exact refused_same hE B htake hmem hadd hneg (hundone.within hE hnode)
  · have hdone := range_split_done hE hstep B hf hrest hprep hloop hadd hret hsplit
    rcases hcases with ⟨-, hok, -⟩ | ⟨hfalse, -⟩
    · cases hok
    · rw [hdone] at hfalse
      cases hfalse

end Range

/-! ### What is granted -/

/-- There is a node for every page of `plan`, and the page table takes the page. -/
def grantsPages (E : Env σ) (v arch fl : ℕ) : List (ℕ × Page) → σ → Bool
  | [], _ => true
  | (x, t) :: plan, s =>
    match E.alloc s v with
    | (none, _) => false
    | (some p, s) =>
      match E.map s arch x { t with addr := p } fl with
      | (ret, s) => if ret < 0 then false else grantsPages E v arch fl plan s

/-- There are `k` nodes, and then what the pages need. -/
def grants (E : Env σ) (v arch fl : ℕ) (plan : List (ℕ × Page)) : ℕ → σ → Bool
  | 0, s => grantsPages E v arch fl plan s
  | k + 1, s =>
    match E.alloc s v with
    | (none, _) => false
    | (some _, s) => grants E v arch fl plan k s

/-- There are `k` nodes, and then `q` holds. -/
def grantsNodes (E : Env σ) (v : ℕ) (q : σ → Bool) : ℕ → σ → Bool
  | 0, s => q s
  | k + 1, s =>
    match E.alloc s v with
    | (none, _) => false
    | (some _, s) => grantsNodes E v q k s

section Granted
variable {arch fl : ℕ} {plan : List (ℕ × Page)} {freePhys : Bool} {q : σ → Bool}

theorem grants_eq (k : ℕ) (s : σ) :
    grants E v arch fl plan k s = grantsNodes E v (grantsPages E v arch fl plan) k s := by
  induction k generalizing s with
  | zero => rfl
  | succ k ih =>
    obtain ⟨⟨r, s'⟩, hs⟩ : ∃ x, E.alloc s v = x := ⟨_, rfl⟩
    rw [grants, grantsNodes, hs]
    cases r with
    | none => rfl
    | some p => exact ih s'

theorem grantsNodes_succ {k : ℕ} {r : Option ℕ} (h : allocNode E v M = (r, M')) :
    grantsNodes E v q (k + 1) M.env = (r.isSome && grantsNodes E v q k M'.env) := by
  rw [grantsNodes, allocNode_alloc h]
  cases r with
  | none => rfl
  | some p => rfl

theorem prepareNodes_grants {r : Option Nodes} (h : prepareNodes E v M = (r, M')) :
    grantsNodes E v q 4 M.env = (r.isSome && q M'.env) := by
  rw [prepareNodes] at h
  split at h
  · next h1 =>
    cases h
    rw [grantsNodes_succ h1]
    rfl
  next h1 =>
  rw [grantsNodes_succ h1, Option.isSome_some, Bool.true_and]
  split at h
  · next h2 =>
    cases h
    rw [grantsNodes_succ h2]
    rfl
  next h2 =>
  rw [grantsNodes_succ h2, Option.isSome_some, Bool.true_and]
  split at h
  · next h3 =>
    cases h
    rw [grantsNodes_succ h3]
    rfl
  next h3 =>
  rw [grantsNodes_succ h3, Option.isSome_some, Bool.true_and]
  split at h
  all_goals
    next h4 =>
    cases h
    rw [grantsNodes_succ h4]
    rfl

theorem prepareEntry_grants {r : Option (ℕ × ℕ × ℕ)} (h : prepareEntry E v M = (r, M')) :
    grantsNodes E v q 3 M.env = (r.isSome && q M'.env) := by
  rw [prepareEntry] at h
  split at h
  · next h1 =>
    cases h
    rw [grantsNodes_succ h1]
    rfl
  next h1 =>
  rw [grantsNodes_succ h1, Option.isSome_some, Bool.true_and]
  split at h
  · next h2 =>
    cases h
    rw [grantsNodes_succ h2]
    rfl
  next h2 =>
  rw [grantsNodes_succ h2, Option.isSome_some, Bool.true_and]
  split at h
  all_goals
    next h3 =>
    cases h
    rw [grantsNodes_succ h3]
    rfl

theorem pageLoop_granted (hE : Lawful E v live)
    (hg : grantsPages E v (M.mem (v + 48)) (M.mem (v + 40)) plan M.env = true) :
    (pageLoop (wirePage E v) plan M).1 = true := by
  induction plan generalizing M with
  | nil => rfl
  | cons x plan ih =>
    obtain ⟨⟨r, s⟩, hs⟩ : ∃ x, E.alloc M.env v = x := ⟨_, rfl⟩
    rw [grantsPages, hs] at hg
    obtain ⟨p, rfl⟩ : ∃ p, r = some p := by
      cases r with
      | none => cases hg
      | some p => exact ⟨p, rfl⟩
    have hnode : allocNode E v M = (some p, { M with mem := clear M.mem p, env := s }) := by
      rw [allocNode, hs]
    have hspace := (allocNode_spec hE hnode).within.space
    have h48 : clear M.mem p (v + 48) = M.mem (v + 48) := hspace 48 (by decide)
    have h40 : clear M.mem p (v + 40) = M.mem (v + 40) := hspace 40 (by decide)
    dsimp only at hg
    split at hg
    · cases hg
    next hret =>
    simp only [pageLoop, wirePage, hnode, h48, h40, if_neg hret]
    refine ih ?_
    simpa only [h48, h40] using hg

theorem withEntry_space {n : Nodes} (hE : Lawful E v live) (hprep : prepareNodes E v M = (some n, M₁)) {i : ℕ} (hi : i < 56) :
    (withEntry M₁ n start size).mem (v + i) = M.mem (v + i) := by
  have hnodes : Takes v live M n.list M₁ := prepareNodes_spec hE hprep
  have hnode : NodeAt v n.e := hE.node (hnodes.new n.e (by simp [Nodes.list])).2
  exact (setEntry_of_out (by rcases hnode.space with h | h <;> omega)).trans (hnodes.within.space i hi)

/-- DONE: a range to be wired, that is granted its nodes and mappings, is made, unless it or a part left
    over starts at address 0. -/
theorem allocRange_granted {ok : Bool} (hE : Lawful E v live) (B : Block live M b t) (hf : f ∈ t.a.inorder)
    (hrest : ∀ r ∈ rest (span M.mem f) (start, size), 64 ∣ r.1 ∧ r.1 ≠ 0) (hstart : 64 ∣ start ∧ start ≠ 0)
    (hg : grants E v (M.mem (v + 48)) (M.mem (v + 40)) plan 4 M.env = true)
    (h : allocRange E v b f start size (wirePage E v) plan freePhys keepF1 M = .ok (ok, M')) : ok = true := by
  rw [grants_eq] at hg
  rcases allocRange_cases h with ⟨-, hnone⟩ | ⟨n, M₁, mapped, ps, M₂, hprep, hloop, hcases⟩
  · rw [prepareNodes_grants hnone] at hg
    cases hg
  rw [prepareNodes_grants hprep, Option.isSome_some, Bool.true_and] at hg
  obtain ⟨htake, hentry⟩ := pages_made hE (wirePage_spec hE v) hprep hloop
  have hmapped : mapped = true := by
    have hdone : (pageLoop (wirePage E v) plan (withEntry M₁ n start size)).1 = true := by
      refine pageLoop_granted hE ?_
      rw [withEntry_space hE hprep (by decide), withEntry_space hE hprep (by decide)]
      exact hg
    rwa [hloop] at hdone
  rcases hcases with ⟨hno, -⟩ | ⟨-, ret, m, hadd, ⟨hneg, -⟩ | ⟨hret, done, M3, hsplit, hcases⟩⟩
  · rw [hmapped] at hno
    cases hno
  · -- the entry would be refused only at address 0
    have hmem : n.e ∈ ps.map Page.addr ++ n.list := mem_append_right _ (by simp [Nodes.list])
    exact absurd ((B.grows htake.within).entryAdd_refused hE (Holding.spare htake B hmem) (congrArg Entry.start hentry)
      hstart.1 hadd hneg) hstart.2
  · have hdone := range_split_done hE (wirePage_spec hE v) B hf hrest hprep hloop hadd hret hsplit
    rcases hcases with ⟨-, hok, -⟩ | ⟨hfalse, -⟩
    · exact hok
    · rw [hdone] at hfalse
      cases hfalse

end Granted

/-! ### Allocation on an object -/

section OnObject
variable {o addr offset flags : ℕ}

theorem allocPages_cases {ret : ℤ} (h : allocPages E v e M = .ok (ret, M')) :
    ret < 0 ∧ M' = M ∨
    ∃ ok ps M₁, pageLoop (allocPage E v) (entryPlan M.mem e) M = (ok, ps, M₁) ∧
      (ok = true ∧ ¬ret < 0 ∧ M' = setObj M₁ (M.mem (e + 16)) { M.obj (M.mem (e + 16)) with
          pages := if ps = [] then (M.obj (M.mem (e + 16))).pages
            else (M.obj (M.mem (e + 16))).pages.takeWhile (fun p => p.index < M.mem (e + 24) / 4096) ++ ps } ∨
        ok = false ∧ ret < 0 ∧ ∃ M₂, unmapPages E v false (M₁.mem e) ps M₁ = .ok M₂ ∧
          M' = setObj M₂ (M.mem (e + 16)) { M.obj (M.mem (e + 16)) with
            pages := if ps = [] then (M.obj (M.mem (e + 16))).pages
              else (M.obj (M.mem (e + 16))).pages.takeWhile (fun p => p.index < M.mem (e + 24) / 4096) }) := by
  simp only [allocPages] at h
  split at h
  · cases h
    exact .inl ⟨by decide, rfl⟩
  split at h
  · next ps M₁ hloop =>
    cases h
    exact .inr ⟨true, ps, M₁, hloop, .inl ⟨rfl, by decide, rfl⟩⟩
  · next ps M₁ hloop =>
    obtain ⟨M₂, hunmap, h⟩ := returned h
    cases h
    exact .inr ⟨false, ps, M₁, hloop, .inr ⟨rfl, by decide, M₂, hunmap, rfl⟩⟩

/-- `_alloc_pages` touches the object only; its pages are old ones and new ones. -/
theorem allocPages_spec (hE : Lawful E v live) (ho : M.mem (e + 16) = o) {ret : ℤ}
    (h : allocPages E v e M = .ok (ret, M')) :
    Within v live (· = o) M M' ∧ (o ∈ live M.env → o ∈ live M'.env) ∧
      ∃ pages, M'.obj o = { M.obj o with pages := pages } ∧
        ∀ p ∈ pages, p ∈ (M.obj o).pages ∨ p.addr ∉ live M.env ∧ p.addr ∈ live M'.env := by
  subst ho
  have htakeWhile : ∀ p ∈ (M.obj (M.mem (e + 16))).pages.takeWhile (fun p => p.index < M.mem (e + 24) / 4096),
      p ∈ (M.obj (M.mem (e + 16))).pages := fun p hp => (takeWhile_sublist _).subset hp
  rcases allocPages_cases h with ⟨-, rfl⟩ | ⟨ok, ps, M₁, hloop, hcases⟩
  · exact ⟨Within.refl _, id, _, rfl, fun p hp => .inl hp⟩
  have htake := pageLoop_spec (allocPage_spec hE v) hloop
  rcases hcases with ⟨-, -, rfl⟩ | ⟨-, -, M₂, hunmap, rfl⟩
  · refine ⟨(htake.within.mono fun _ _ hf => hf.elim).trans (within_setObj _ _) fun _ _ => id,
      fun ho => htake.within.inUse _ ho id, _, setObj_self .., fun p hp => ?_⟩
    split at hp
    · exact .inl hp
    · rcases mem_append.mp hp with hp | hp
      · exact .inl (htakeWhile p hp)
      · exact .inr (htake.new _ (mem_map_of_mem hp))
  · have hw := htake.within.trans (unmapPages_spec hE (fun p hp => hE.node (htake.new _ (mem_map_of_mem hp)).2) hunmap)
      (by
        rintro p hp ⟨q, hq, rfl⟩
        exact (htake.new _ (mem_map_of_mem hq)).1 hp)
    refine ⟨(hw.mono fun _ _ hf => hf.elim).trans (within_setObj _ _) fun _ _ => id,
      fun ho => hw.inUse _ ho id, _, setObj_self .., fun p hp => ?_⟩
    split at hp
    · exact .inl hp
    · exact .inl (htakeWhile p hp)

theorem freeNode_setObj (p : ℕ) (x : Obj) : freeNode E v p (setObj M o x) = setObj (freeNode E v p M) o x := by
  simp only [freeNode, setObj_env, setObj_mem]
  split <;> rfl

theorem setObj_setObj (x y : Obj) : setObj (setObj M o x) o y = setObj M o y := by
  simp only [setObj, update_idem]

theorem setObj_obj : setObj M o (M.obj o) = M := by
  simp only [setObj, update_eq_self]

/-- All that a call does after its checks; `o` counts the entry from the start. -/
theorem allocEntryIn_cases {r : ℕ} (h : allocEntryIn E v b f o addr size offset flags M = .ok (r, M')) :
    r = 0 ∧ prepareEntry E v M = (none, M') ∨
    ∃ e f0 f1 M₁ ret m, prepareEntry E v M = (some (e, f0, f1), M₁) ∧
      entryAdd b e (setEntry M₁.mem e addr size o offset flags) = .ok (ret, m) ∧
      (r = 0 ∧ ret < 0 ∧ M' = freeNode E v e (freeNode E v f0 (freeNode E v f1 { M₁ with mem := m })) ∨
        ¬ret < 0 ∧ ∃ done M₂, splitFree E v b e f f0 f1 false
            { setObj M₁ o { M₁.obj o with refs := (M₁.obj o).refs + 1 } with mem := m } = .ok (done, M₂) ∧
          (done = true → ∃ ret', allocPages E v e M₂ = .ok (ret', M') ∧ r = if ret' < 0 then 0 else e) ∧
          (done = false → r = 0 ∧
            M' = freeNode E v e (setObj (freeNode E v f0 (freeNode E v f1 M₂)) o (M₁.obj o)))) := by
  rw [allocEntryIn] at h
  split at h
  · next M₁ hprep =>
    cases h
    exact .inl ⟨rfl, hprep⟩
  next e f0 f1 M₁ hprep =>
  obtain ⟨⟨ret, m⟩, hadd, h1⟩ := returned h
  refine .inr ⟨e, f0, f1, M₁, ret, m, hprep, hadd, ?_⟩
  dsimp only at h1
  split at h1
  · next hneg =>
    cases h1
    refine .inl ⟨rfl, hneg, ?_⟩
    have hobj : ({ setObj { M₁ with mem := setEntry M₁.mem e addr size o offset flags } o
        { M₁.obj o with refs := (M₁.obj o).refs + 1 } with mem := m } : Machine σ) =
        setObj { M₁ with mem := m } o { M₁.obj o with refs := (M₁.obj o).refs + 1 } := rfl
    rw [hobj]
    simp only [freeNode_setObj, setObj_setObj]
    rw [← freeNode_setObj, ← freeNode_setObj, ← freeNode_setObj]
    exact congrArg (fun X => freeNode E v e (freeNode E v f0 (freeNode E v f1 X)))
      (setObj_obj)
  next hret =>
  refine .inr ⟨hret, ?_⟩
  obtain ⟨⟨done, M₂⟩, hsplit, h2⟩ := returned h1
  refine ⟨done, M₂, hsplit, ?_⟩
  cases done with
  | false =>
    cases h2
    exact ⟨fun h => absurd h (by decide), fun _ => ⟨rfl, rfl⟩⟩
  | true =>
    obtain ⟨⟨ret', M3⟩, hpages, h3⟩ := returned h2
    obtain ⟨hr, rfl⟩ := Prod.mk.inj (Except.ok.inj h3)
    exact ⟨fun _ => ⟨ret', hpages, hr.symm⟩, fun h => absurd h (by decide)⟩

/-- How an entry on an object was made: the node `e` holds it, and then `_alloc_pages` was called. -/
def EntryMade (E : Env σ) (v b f : ℕ) (x : Entry) (e r : ℕ) (M M' : Machine σ) : Prop :=
  ∃ f0 f1 M₁ ret m M₂ ret', prepareEntry E v M = (some (e, f0, f1), M₁) ∧
    entryAdd b e (setEntry M₁.mem e x.start x.size x.object x.offset x.flags) = .ok (ret, m) ∧
    splitFree E v b e f f0 f1 false
      { setObj M₁ x.object { M₁.obj x.object with refs := (M₁.obj x.object).refs + 1 } with mem := m } = .ok (true, M₂) ∧
    entryAt M₂.mem e = x ∧ M₂.obj x.object = { M.obj x.object with refs := (M.obj x.object).refs + 1 } ∧
    allocPages E v e M₂ = .ok (ret', M') ∧ r = if ret' < 0 then 0 else e

theorem prepareEntry_filled (hE : Lawful E v live) (hprep : prepareEntry E v M = (some (e, f0, f1), M₁)) :
    Takes v live M [f1, f0, e] { M₁ with mem := setEntry M₁.mem e addr size o offset flags } := by
  have htake : Takes v live M [f1, f0, e] M₁ := prepareEntry_spec hE hprep
  have hen := htake.new e (by simp)
  have hset : Within v live (· = e) M₁ { M₁ with mem := setEntry M₁.mem e addr size o offset flags } :=
    within_node hE (hE.node hen.2) fun a ha => setEntry_of_out ha
  exact htake.write hset (fun p hp heq => hen.1 (heq ▸ hp)) rfl

/-- MADE: once its node is in the block, the entry is there and the object counts it. -/
theorem allocEntryIn_made {r : ℕ} {ret : ℤ} {m : Mem} {done : Bool} {M₂ : Machine σ} (hE : Lawful E v live)
    (B : Block live M b t) (hf : f ∈ t.a.inorder) (ho : Spare live M b t.nodes o)
    (hrest : r = 0 → ∀ p ∈ rest (span M.mem f) (addr, size), 64 ∣ p.1 ∧ p.1 ≠ 0)
    (hprep : prepareEntry E v M = (some (e, f0, f1), M₁))
    (hadd : entryAdd b e (setEntry M₁.mem e addr size o offset flags) = .ok (ret, m)) (hret : ¬ret < 0)
    (hsplit : splitFree E v b e f f0 f1 false
      { setObj M₁ o { M₁.obj o with refs := (M₁.obj o).refs + 1 } with mem := m } = .ok (done, M₂))
    (htrue : done = true → ∃ ret', allocPages E v e M₂ = .ok (ret', M') ∧ r = if ret' < 0 then 0 else e)
    (hfalse : done = false → r = 0 ∧
      M' = freeNode E v e (setObj (freeNode E v f0 (freeNode E v f1 M₂)) o (M₁.obj o))) :
    ∃ t' pages, Carved v live b f t t' e ⟨addr, size, o, offset, flags⟩ M M' ∧
      EntryMade E v b f ⟨addr, size, o, offset, flags⟩ e r M M' ∧ o ∈ live M'.env ∧ o ∉ t'.nodes ∧
      M'.obj o = { M.obj o with refs := (M.obj o).refs + 1, pages := pages } ∧
      ∀ p ∈ pages, p ∈ (M.obj o).pages ∨
        p.addr ∈ live M'.env ∧ p.addr ∉ t'.nodes ∧ (p.addr ∈ live M.env → p.addr ∈ t.nodes) := by
  have htake : Takes v live M [f1, f0, e] M₁ := prepareEntry_spec hE hprep
  have hfilled : Takes v live M [f1, f0, e] { M₁ with mem := setEntry M₁.mem e addr size o offset flags } :=
    prepareEntry_filled hE hprep
  have hon : o ∉ [f1, f0, e] := fun hmem => (htake.new o hmem).1 ho.inUse
  have hobj1 : M₁.obj o = M.obj o := htake.within.obj o ho.inUse id
  -- the object counts the entry
  have hfill : Holding v live (· = o) M [f1, f0, e]
      (setObj { M₁ with mem := setEntry M₁.mem e addr size o offset flags } o
        { M₁.obj o with refs := (M₁.obj o).refs + 1 }) :=
    Holding.write ⟨hfilled.within.mono fun _ _ hf => hf.elim, hfilled.nodup, hfilled.new⟩ (within_setObj o _)
      (fun _ _ => id) rfl
  have hx1 : entryAt (setEntry M₁.mem e addr size o offset flags) e = ⟨addr, size, o, offset, flags⟩ :=
    setEntry_entryAt ..
  have hdone : done = true := by
    cases done with
    | true => rfl
    | false =>
      exact split_done hE B hfill ho.block.symm (fun s hs heq => ho.notMem (heq ▸ hs)) (List.Sublist.refl _) hf
        (span_eq_of_entryAt hx1) (hrest (hfalse rfl).1) hadd hret hsplit
  subst hdone
  obtain ⟨ret', hpages, hr⟩ := htrue rfl
  obtain ⟨t', hcarved, hnodes, hw⟩ :=
    carved_of_split (x := ⟨addr, size, o, offset, flags⟩) hE B hf hfill (List.Sublist.refl _) ho.block ho.notMem hon
      hx1 hadd hret hsplit
  have hobW : ¬(o = b ∨ o ∈ t.nodes ∨ o = e ∨ o = f0 ∨ o = f1) := by
    rintro (h | h | h | h | h)
    · exact ho.block h
    · exact ho.notMem h
    all_goals exact hon (by simp [h])
  have hoT : o ∉ t'.nodes := fun hmem => by
    rcases hnodes o hmem with h | h
    · exact ho.notMem h
    · exact hon h
  have ho2 : o ∈ live M₂.env := hw.inUse o (htake.within.inUse o ho.inUse id) hobW
  have hobj2 : M₂.obj o = { M.obj o with refs := (M.obj o).refs + 1 } := by
    rw [hw.obj o (htake.within.inUse o ho.inUse id) hobW, setObj_self, hobj1]
  have hx16 : M₂.mem (e + 16) = o := congrArg Entry.object hcarved.entry
  obtain ⟨hwp, hop, pages, hobj, hps⟩ := allocPages_spec hE hx16 hpages
  refine ⟨t', pages, hcarved.after hwp (fun _ _ => id) ho.block.symm fun s hs heq => hoT (heq ▸ hs),
    ⟨f0, f1, M₁, ret, m, M₂, ret', hprep, hadd, hsplit, hcarved.entry, hobj2, hpages, hr⟩, hop ho2, hoT,
    by rw [hobj, hobj2], fun p hp => ?_⟩
  rcases hps p hp with hold | ⟨hpn, hpl⟩
  · rw [hobj2] at hold
    exact .inl hold
  · -- a page may get the node of the free interval that was split
    refine .inr ⟨hpl, fun hmem => hpn (hcarved.home.nodes _ hmem), fun hM => ?_⟩
    by_contra hnot
    refine hpn (hcarved.within.inUse _ hM ?_)
    rintro (h | h | h)
    · exact hpn (h ▸ hcarved.home.block)
    · exact hnot h
    · exact hpn (h ▸ ho2)

/-- CARVED: a call adds one entry on the object, which gets the pages of the entry; or it leaves the
    block as it was. -/
theorem allocEntryIn_carved {r : ℕ} (hE : Lawful E v live) (B : Block live M b t) (hf : f ∈ t.a.inorder)
    (ho : Spare live M b t.nodes o)
    (hrest : r = 0 → ∀ p ∈ rest (span M.mem f) (addr, size), 64 ∣ p.1 ∧ p.1 ≠ 0)
    (h : allocEntryIn E v b f o addr size offset flags M = .ok (r, M')) :
    r = 0 ∧ Same v live b t M M' ∨
    ∃ t' e pages, Carved v live b f t t' e ⟨addr, size, o, offset, flags⟩ M M' ∧
      EntryMade E v b f ⟨addr, size, o, offset, flags⟩ e r M M' ∧ o ∈ live M'.env ∧ o ∉ t'.nodes ∧
      M'.obj o = { M.obj o with refs := (M.obj o).refs + 1, pages := pages } ∧
      ∀ p ∈ pages, p ∈ (M.obj o).pages ∨
        p.addr ∈ live M'.env ∧ p.addr ∉ t'.nodes ∧ (p.addr ∈ live M.env → p.addr ∈ t.nodes) := by
  rcases allocEntryIn_cases h with ⟨hr, hprep⟩ | ⟨e, f0, f1, M₁, ret, m, hprep, hadd, hcases⟩
  · exact .inl ⟨hr, B.same (prepareEntry_spec hE hprep).within⟩
  have hfilled : Takes v live M [f1, f0, e] { M₁ with mem := setEntry M₁.mem e addr size o offset flags } :=
    prepareEntry_filled hE hprep
  rcases hcases with ⟨hr, hneg, rfl⟩ | ⟨hret, done, M₂, hsplit, htrue, hfalse⟩
  · refine .inl ⟨hr, refused_same hE B hfilled (by simp) hadd hneg ?_⟩
    have hnode : ∀ p ∈ [f1, f0, e], NodeAt v p := fun p hp => hE.node (hfilled.new p hp).2
    have h1 := freeNode_spec hE v (hnode f1 (by simp)) { M₁ with mem := m }
    have h0 := freeNode_spec hE v (hnode f0 (by simp)) (freeNode E v f1 { M₁ with mem := m })
    have he := freeNode_spec hE v (hnode e (by simp)) (freeNode E v f0 (freeNode E v f1 { M₁ with mem := m }))
    refine ((h1.mono fun p _ heq => ?_).trans h0 fun p _ heq => ?_).trans he fun p _ heq => ?_ <;> simp [heq]
  · obtain ⟨t', pages, hmade⟩ := allocEntryIn_made hE B hf ho hrest hprep hadd hret hsplit htrue hfalse
    exact .inr ⟨t', e, pages, hmade⟩

end OnObject

end Advos.Vmem
