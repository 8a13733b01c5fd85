import Advos.Vmem.Carve

/-! What the allocations do to the block they work on.

    A successful one adds one entry and replaces the free interval `f` by what is left over of it; the
    other free intervals and entries, and everything outside the block, are as before. -/

namespace Advos.Vmem
open SearchTree Word List

variable {σ : Type}

/-! ### The block -/

/-- `virt_memory_entry_t`, without its tree node. -/
structure Entry where
  start : ℕ
  size : ℕ
  object : ℕ
  offset : ℕ
  flags : ℕ
deriving DecidableEq, Repr

def entryAt (m : Mem) (e : ℕ) : Entry := ⟨m e, m (e + 8), m (e + 16), m (e + 24), m (e + 32)⟩

theorem setEntry_entryAt (m : Mem) (e start size object offset flags : ℕ) :
    entryAt (setEntry m e start size object offset flags) e = ⟨start, size, object, offset, flags⟩ := by
  simp [entryAt, setEntry, set]

theorem setEntry_of_out {m : Mem} {e start size object offset flags a : ℕ} (h : a < e ∨ e + 64 ≤ a) :
    setEntry m e start size object offset flags a = m a := by
  simp only [setEntry]
  rw [set_of_ne (by omega), set_of_ne (by omega), set_of_ne (by omega), set_of_ne (by omega),
    set_of_ne (by omega)]

theorem Kept.entryAt_eq {S : List ℕ} {m m' : Mem} (h : Kept 40 S m m') {e : ℕ} (he : e ∈ S) :
    entryAt m' e = entryAt m e := by
  simp only [entryAt, Entry.mk.injEq]
  exact ⟨h e he 0 (by decide), h e he 8 (by decide), h e he 16 (by decide), h e he 24 (by decide),
    h e he 32 (by decide)⟩

theorem span_eq_of_entryAt {m : Mem} {e : ℕ} {x : Entry} (h : entryAt m e = x) : span m e = (x.start, x.size) := by
  subst h
  rfl

/-- The block has the same free intervals and entries as before, and the rest is not touched. -/
structure Same (v : ℕ) (live : σ → Set ℕ) (b : ℕ) (t : Forest) (M M' : Machine σ) : Prop where
  trees : Trees b M'.mem t.a t.s t.e
  keptA : Kept 16 t.a.inorder M.mem M'.mem
  keptE : Kept 40 t.e.inorder M.mem M'.mem
  head : Kept 24 [b] M.mem M'.mem
  home : Home live M' b t.nodes
  within : Within v live (fun p => p = b ∨ p ∈ t.nodes) M M'

/-- The block has a new entry `e`, with the fields `x`, that was carved out of `f`; the rest, but for
    the object of the entry, is not touched. -/
structure Carved (v : ℕ) (live : σ → Set ℕ) (b f : ℕ) (t t' : Forest) (e : ℕ) (x : Entry)
    (M M' : Machine σ) : Prop where
  trees : Trees b M'.mem t'.a t'.s t'.e
  entries : t'.e.inorder.Perm (e :: t.e.inorder)
  frees : ∃ used, t'.a.inorder.Perm (used ++ t.a.inorder.erase f) ∧
    used.map (span M'.mem) = rest (span M.mem f) (x.start, x.size) ∧
    ∀ s ∈ used, s ∉ live M.env ∧ s ∈ live M'.env ∧ s ≠ x.object
  new : e ∉ live M.env ∧ e ∈ live M'.env ∧ e ≠ x.object
  entry : entryAt M'.mem e = x
  keptA : Kept 16 (t.a.inorder.erase f) M.mem M'.mem
  keptE : Kept 40 t.e.inorder M.mem M'.mem
  head : Kept 24 [b] M.mem M'.mem
  home : Home live M' b t'.nodes
  within : Within v live (fun p => p = b ∨ p ∈ t.nodes ∨ p = x.object) M M'

/-- Structures of the block that were in use before were in the block. -/
theorem Carved.old {v b f e : ℕ} {live : σ → Set ℕ} {t t' : Forest} {x : Entry} {M M' : Machine σ}
    (h : Carved v live b f t t' e x M M') : ∀ s ∈ t'.nodes, s ∈ live M.env → s ∈ t.nodes := by
  obtain ⟨used, hpa, -, hused⟩ := h.frees
  intro s hs hlive
  rcases mem_append.mp hs with hs | hs
  · rcases mem_append.mp (hpa.mem_iff.mp hs) with hs | hs
    · exact absurd hlive (hused s hs).1
    · exact mem_append_left _ (mem_of_mem_erase hs)
  · rcases mem_cons.mp (h.entries.mem_iff.mp hs) with rfl | hs
    · exact absurd hlive h.new.1
    · exact mem_append_right _ hs

section Carve
variable {E : Env σ} {v b f e f0 f1 : ℕ} {live : σ → Set ℕ} {W : ℕ → Prop} {M M₁ M' : Machine σ} {t : Forest}

theorem Block.grows (B : Block live M b t) (h : Grows v live M M') : Block live M' b t :=
  B.within h id fun _ _ => id

theorem Moves.same (h : Moves v live b t.a.inorder t.e.inorder (· ∈ t.nodes) M M') (B : Block live M' b t) :
    Same v live b t M M' :=
  ⟨B.trees, h.keptA, h.keptE, h.head, B.home, h.within⟩

theorem Block.same (B : Block live M b t) (h : Grows v live M M') : Same v live b t M M' :=
  ((B.moves h id fun _ _ => id).mono (fun _ => id) (fun _ => id) fun _ _ hf => hf.elim).same (B.grows h)

theorem Holding.spare {ns : List ℕ} {p : ℕ} (h : Holding v live W M ns M₁) (B : Block live M b t)
    (hp : p ∈ ns) : Spare live M₁ b t.nodes p := by
  obtain ⟨hnew, hlive⟩ := h.new p hp
  exact ⟨hlive, fun heq => hnew (heq ▸ B.home.block), fun hmem => hnew (B.home.nodes p hmem)⟩

theorem Spare.added {n : ℕ} {m : Mem} {Te : BTree ℕ} (h : Spare live M b t.nodes n) (hne : n ≠ e)
    (hp : Te.inorder.Perm (e :: t.e.inorder)) : Spare live { M with mem := m } b (Forest.nodes ⟨t.a, t.s, Te⟩) n :=
  h.mem fun hs => by simpa [Forest.mem_nodes, hp.mem_iff, hne] using hs

theorem Block.carve (B : Block live M b t) (hE : Lawful E v live) (hf : f ∈ t.a.inorder)
    (he : Spare live M b t.nodes e) (h0 : Spare live M b t.nodes f0) (h1 : Spare live M b t.nodes f1)
    (h0e : f0 ≠ e) (h1e : f1 ≠ e) (h01 : f0 ≠ f1) {ret : ℤ} {m1 : Mem} {keepF1 : Bool}
    (hadd : entryAdd b e M.mem = .ok (ret, m1)) (hret : ¬ret < 0)
    (hsplit : splitFree E v b e f f0 f1 keepF1 { M with mem := m1 } = .ok (true, M')) :
    ∃ t' used, Block live M' b t' ∧ t'.e.inorder.Perm (e :: t.e.inorder) ∧
      t'.a.inorder.Perm (used ++ t.a.inorder.erase f) ∧
      used.map (span M'.mem) = rest (span M.mem f) (span M.mem e) ∧ used.Sublist [f0, f1] ∧
      Moves v live b (t.a.inorder.erase f) (e :: t.e.inorder) (fun p => p ∈ t.nodes ∨ p = e ∨ p = f0 ∨ p = f1) M M' := by
  obtain ⟨hok, -, hmoves1⟩ := B.entryAdd_ok hE he hadd
  obtain ⟨Te, B1, hp⟩ := hok hret
  obtain ⟨Ta, Ts, used, B', hpa, hspans, hused, hmoves2⟩ := B1.split hE hf (hp.mem_iff.mpr mem_cons_self)
    (h0.added h0e hp) (h1.added h1e hp) h01 hsplit
  refine ⟨⟨Ta, Ts, Te⟩, used, B', hp, hpa, ?_, hused, ?_⟩
  · rw [hspans, hmoves1.keptA.span_eq (by decide) hf, hmoves1.keptE.span_eq (by decide) mem_cons_self]
  · refine (hmoves1.mono (fun s hs => mem_of_mem_erase hs) (fun _ => id) fun p _ hp => .inr ?_).trans hmoves2
      (fun _ => id) (fun s hs => hp.mem_iff.mpr hs) fun p _ hp => .inr ?_
    · rcases mem_cons.mp hp with hp | hp
      · exact .inr (.inl hp)
      · exact .inl (mem_append_right _ hp)
    · rcases hp with hp | hp
      · exact .inl (mem_append_left _ hp)
      · exact .inr (.inr hp)

/-- CARVED: with nodes `e`, `f0` and `f1` that were taken, and the entry filled in. -/
theorem carved_of_split {x : Entry} {ns : List ℕ} (hE : Lawful E v live) (B : Block live M b t)
    (hf : f ∈ t.a.inorder) (hold : Holding v live (· = x.object) M ns M₁) (hns : [f1, f0, e].Sublist ns)
    (hob : x.object ≠ b) (hot : x.object ∉ t.nodes) (hon : x.object ∉ [f1, f0, e])
    (hentry : entryAt M₁.mem e = x) {ret : ℤ} {m : Mem} {keepF1 : Bool}
    (hadd : entryAdd b e M₁.mem = .ok (ret, m)) (hret : ¬ret < 0)
    (hsplit : splitFree E v b e f f0 f1 keepF1 { M₁ with mem := m } = .ok (true, M')) :
    ∃ t', Carved v live b f t t' e x M M' ∧ (∀ s ∈ t'.nodes, s ∈ t.nodes ∨ s ∈ [f1, f0, e]) ∧
      Within v live (fun p => p = b ∨ p ∈ t.nodes ∨ p = e ∨ p = f0 ∨ p = f1) M₁ M' := by
  have hout : ∀ s ∈ t.nodes, s ≠ x.object := fun s hs heq => hot (heq ▸ hs)
  have hmoves0 := B.moves hold.within hob.symm hout
  have hnew : ∀ p ∈ [f1, f0, e], p ∉ live M.env := fun p hp => (hold.new p (hns.subset hp)).1
  have hspare : ∀ p ∈ [f1, f0, e], Spare live M₁ b t.nodes p := fun p hp => hold.spare B (hns.subset hp)
  have hnd := hold.nodup.sublist hns
  simp only [nodup_cons, mem_cons, not_mem_nil, or_false, not_or] at hnd hon
  obtain ⟨⟨h10, h1e⟩, h0e, -⟩ := hnd
  simp only [forall_mem_cons] at hspare hnew
  obtain ⟨hs1, hs0, hse, -⟩ := hspare
  obtain ⟨h1, h0, he, -⟩ := hnew
  obtain ⟨t', used, B', hpe, hpa, hspans, hused, hmoves⟩ :=
    (B.within hold.within hob.symm hout).carve hE hf hse hs0 hs1 h0e h1e (Ne.symm h10) hadd hret hsplit
  have hall : Moves v live b (t.a.inorder.erase f) t.e.inorder (fun p => p ∈ t.nodes ∨ p = x.object) M M' := by
    refine (hmoves0.mono (fun s hs => mem_of_mem_erase hs) (fun _ => id) fun p _ hp => .inr (.inr hp)).trans hmoves
      (fun _ => id) (fun s hs => mem_cons_of_mem _ hs) fun p hp hW => ?_
    rcases hW with h | h | h | h
    · exact .inr (.inl h)
    · exact absurd hp (h ▸ he)
    · exact absurd hp (h ▸ h0)
    · exact absurd hp (h ▸ h1)
  have heT : e ∈ t'.e.inorder := hpe.mem_iff.mpr mem_cons_self
  have huT : ∀ s ∈ used, s ∈ t'.a.inorder := fun s hs => hpa.mem_iff.mpr (mem_append_left _ hs)
  refine ⟨t', ⟨B'.trees, hpe, ⟨used, hpa, ?_, fun s hs => ?_⟩, ⟨he, (B'.entry e heT).1, Ne.symm hon.2.2⟩, ?_,
    hall.keptA, hall.keptE, hall.head, B'.home, hall.within⟩, fun s hs => ?_, hmoves.within⟩
  · rw [hspans, hmoves0.keptA.span_eq (by decide) hf, span_eq_of_entryAt hentry]
  · have hlive := (B'.free s (huT s hs)).1
    rcases mem_pair.mp (hused.subset hs) with rfl | rfl
    · exact ⟨h0, hlive, Ne.symm hon.2.1⟩
    · exact ⟨h1, hlive, Ne.symm hon.1⟩
  · rw [hmoves.keptE.entryAt_eq mem_cons_self, hentry]
  · rcases mem_append.mp hs with hs | hs
    · rcases mem_append.mp (hpa.mem_iff.mp hs) with hs | hs
      · rcases mem_pair.mp (hused.subset hs) with rfl | rfl <;> exact .inr (by simp)
      · exact .inl (mem_append_left _ (mem_of_mem_erase hs))
    · rcases mem_cons.mp (hpe.mem_iff.mp hs) with rfl | hs
      · exact .inr (by simp)
      · exact .inl (mem_append_right _ hs)

theorem Carved.after {x : Entry} {t' : Forest}
    (h : Carved v live b f t t' e x M M₁) (hw : Within v live W M₁ M') (hW : ∀ p ∈ live M.env, W p → p = x.object)
    (hWb : ¬W b) (hWt : ∀ s ∈ t'.nodes, ¬W s) : Carved v live b f t t' e x M M' := by
  obtain ⟨used, hpa, hspans, hused⟩ := h.frees
  have huT : ∀ s ∈ used, s ∈ t'.a.inorder := fun s hs => hpa.mem_iff.mpr (mem_append_left _ hs)
  have heT : e ∈ t'.e.inorder := h.entries.mem_iff.mpr mem_cons_self
  have B1 : Block live M₁ b t' := ⟨h.trees, h.home⟩
  have B := B1.within hw hWb hWt
  have hmoves := B1.moves hw hWb hWt
  refine ⟨B.trees, h.entries, ⟨used, hpa, ?_, fun s hs => ?_⟩, ⟨h.new.1, (B.entry e heT).1, h.new.2.2⟩, ?_,
    h.keptA.trans (hmoves.keptA.subset fun s hs => hpa.mem_iff.mpr (mem_append_right _ hs)),
    h.keptE.trans (hmoves.keptE.subset fun s hs => h.entries.mem_iff.mpr (mem_cons_of_mem _ hs)),
    h.head.trans hmoves.head, B.home, h.within.trans hw fun p hp hWp => .inr (.inr (hW p hp hWp))⟩
  · rw [(hmoves.keptA.subset huT).map_span (by decide), hspans]
  · exact ⟨(hused s hs).1, (B.free s (huT s hs)).1, (hused s hs).2.2⟩
  · rw [hmoves.keptE.entryAt_eq heT, h.entry]

end Carve

/-! ### Allocation with an object of its own -/

/-- The entry and its object, before there are pages. -/
def withEntry (M : Machine σ) (n : Nodes) (start size : ℕ) : Machine σ :=
  setObj { M with mem := setEntry M.mem n.e start size n.o 0 2 } n.o ⟨[], size, 1⟩

/-- The errors of an allocation after its pages: they are unmapped, and the nodes are released. -/
def Undone (E : Env σ) (v : ℕ) (n : Nodes) (ps : List Page) (start : ℕ) (freePhys : Bool)
    (M M' : Machine σ) : Prop :=
  ∃ M₁, unmapPages E v freePhys start ps M = .ok M₁ ∧ M' = releaseNodes E v n M₁

section Range
variable {E : Env σ} {v b f start size : ℕ} {live : σ → Set ℕ} {M M' : Machine σ} {t : Forest}
  {step : ℕ → Page → Machine σ → Option Page × Machine σ} {plan : List (ℕ × Page)} {freePhys keepF1 ok : Bool}

theorem allocRange_cases (h : allocRange E v b f start size step plan freePhys keepF1 M = .ok (ok, M')) :
    ok = false ∧ prepareNodes E v M = (none, M') ∨
    ∃ n M₁ mapped ps M₂, prepareNodes E v M = (some n, M₁) ∧
      pageLoop step plan (withEntry M₁ n start size) = (mapped, ps, M₂) ∧
      (mapped = false ∧ ok = false ∧ Undone E v n ps start freePhys (setObj M₂ n.o ⟨ps, size, 1⟩) M' ∨
        mapped = true ∧ ∃ ret m, entryAdd b n.e M₂.mem = .ok (ret, m) ∧
          (ret < 0 ∧ ok = false ∧
              Undone E v n ps start freePhys { setObj M₂ n.o ⟨ps, size, 1⟩ with mem := m } M' ∨
            ¬ret < 0 ∧ ∃ done M3, splitFree E v b n.e f n.f0 n.f1 keepF1
                { setObj M₂ n.o ⟨ps, size, 1⟩ with mem := m } = .ok (done, M3) ∧
              (done = true ∧ ok = true ∧ M' = M3 ∨
                done = false ∧ ok = false ∧ Undone E v n ps start freePhys M3 M'))) := by
  rw [allocRange] at h
  split at h
  · next M₁ hprep =>
    obtain ⟨hok, rfl⟩ := Prod.mk.inj (Except.ok.inj h)
    exact .inl ⟨hok.symm, hprep⟩
  next n M₁ hprep =>
  dsimp only at h
  obtain ⟨⟨mapped, ps, M₂⟩, hloop⟩ : ∃ r, pageLoop step plan (withEntry M₁ n start size) = r := ⟨_, rfl⟩
  rw [withEntry] at hloop
  rw [hloop] at h
  refine .inr ⟨n, M₁, mapped, ps, M₂, hprep, hloop, ?_⟩
  have hundone : ∀ {M3 : Machine σ} {r}, (do
      let M ← unmapPages E v freePhys start ps M3
      pure (false, releaseNodes E v n M) : Except Stop (Bool × Machine σ)) = .ok r →
      r.1 = false ∧ Undone E v n ps start freePhys M3 r.2 := by
    intro M3 r hr
    obtain ⟨M4, hunmap, hr⟩ := returned hr
    cases hr
    exact ⟨rfl, M4, hunmap, rfl⟩
  cases mapped with
  | false => exact .inl ⟨rfl, hundone h⟩
  | true =>
    refine .inr ⟨rfl, ?_⟩
    simp only [Bool.not_true, Bool.false_eq_true, if_false] at h
    obtain ⟨⟨ret, m⟩, hadd, hret⟩ := returned h
    refine ⟨ret, m, hadd, ?_⟩
    dsimp only at hret
    split at hret
    · next hneg => exact .inl ⟨hneg, hundone hret⟩
    next hneg =>
    refine .inr ⟨hneg, ?_⟩
    obtain ⟨⟨done, M3⟩, hsplit, hdone⟩ := returned hret
    refine ⟨done, M3, hsplit, ?_⟩
    cases done with
    | false => exact .inr ⟨rfl, hundone hdone⟩
    | true =>
      obtain ⟨hok, rfl⟩ := Prod.mk.inj (Except.ok.inj hdone)
      exact .inl ⟨rfl, hok.symm, rfl⟩

variable {ps : List Page}

/-- The entry, its object and the pages are made, and nothing in use is touched. -/
theorem pages_made (hE : Lawful E v live) (hstep : MakesPage v live step) {n : Nodes} {M₁ M₂ : Machine σ}
    {mapped : Bool} (hprep : prepareNodes E v M = (some n, M₁))
    (hloop : pageLoop step plan (withEntry M₁ n start size) = (mapped, ps, M₂)) :
    Takes v live M (ps.map Page.addr ++ n.list) (setObj M₂ n.o ⟨ps, size, 1⟩) ∧
      entryAt M₂.mem n.e = ⟨start, size, n.o, 0, 2⟩ := by
  have hnodes : Takes v live M n.list M₁ := prepareNodes_spec hE hprep
  have hmem : ∀ p ∈ n.list, p ∉ live M.env ∧ p ∈ live M₁.env := hnodes.new
  have he := hmem n.e (by simp [Nodes.list])
  have ho := hmem n.o (by simp [Nodes.list])
  have hset : Within v live (· = n.e) M₁ { M₁ with mem := setEntry M₁.mem n.e start size n.o 0 2 } :=
    within_node hE (hE.node he.2) fun a ha => setEntry_of_out ha
  have h1 : Takes v live M n.list (withEntry M₁ n start size) :=
    (hnodes.write hset (fun p hp heq => he.1 (heq ▸ hp)) rfl).write (within_setObj n.o _)
      (fun p hp heq => ho.1 (heq ▸ hp)) rfl
  have h2 := pageLoop_spec hstep hloop
  refine ⟨(takes_trans h1 h2).write (within_setObj n.o _) (fun p hp heq => ho.1 (heq ▸ hp)) rfl, ?_⟩
  have hk : Kept 64 [n.e] (withEntry M₁ n start size).mem M₂.mem :=
    h2.within.kept fun s hs => by
      obtain rfl := mem_singleton.mp hs
      exact ⟨he.2, id⟩
  rw [(hk.mono (by decide)).entryAt_eq (mem_singleton_self _)]
  exact setEntry_entryAt ..

theorem Undone.within (hE : Lawful E v live) {n : Nodes} (h : Undone E v n ps start freePhys M M')
    (hn : ∀ p ∈ ps.map Page.addr ++ n.list, NodeAt v p) :
    Within v live (· ∈ ps.map Page.addr ++ n.list) M M' := by
  obtain ⟨M₁, hunmap, rfl⟩ := h
  have hps : ∀ p ∈ ps, p.addr ∈ ps.map Page.addr ++ n.list :=
    fun p hp => mem_append_left _ (mem_map_of_mem hp)
  refine ((unmapPages_spec hE (fun p hp => hn _ (hps p hp)) hunmap).mono ?_).trans
    (releaseNodes_spec hE fun p hp => hn p (mem_append_right _ hp)) fun p _ hp => mem_append_right _ hp
  rintro p _ ⟨q, hq, rfl⟩
  exact hps q hq

/-- How a range was allocated: with the nodes `n` and the pages `ps`. -/
def RangeMade (E : Env σ) (v b f start size : ℕ) (step : ℕ → Page → Machine σ → Option Page × Machine σ)
    (plan : List (ℕ × Page)) (keepF1 : Bool) (n : Nodes) (ps : List Page) (M M' : Machine σ) : Prop :=
  ∃ M₁ M₂ ret m, prepareNodes E v M = (some n, M₁) ∧
    pageLoop step plan (withEntry M₁ n start size) = (true, ps, M₂) ∧
    entryAdd b n.e M₂.mem = .ok (ret, m) ∧ ¬ret < 0 ∧
    splitFree E v b n.e f n.f0 n.f1 keepF1 { setObj M₂ n.o ⟨ps, size, 1⟩ with mem := m } = .ok (true, M')

theorem allocRange_made (h : allocRange E v b f start size step plan freePhys keepF1 M = .ok (true, M')) :
    ∃ n ps, RangeMade E v b f start size step plan keepF1 n ps M M' := by
  rcases allocRange_cases h with ⟨hok, -⟩ | ⟨n, M₁, mapped, ps, M₂, hprep, hloop, hcases⟩
  · cases hok
  rcases hcases with ⟨-, hok, -⟩ | ⟨rfl, ret, m, hadd, hcases⟩
  · cases hok
  rcases hcases with ⟨-, hok, -⟩ | ⟨hret, done, M3, hsplit, hcases⟩
  · cases hok
  rcases hcases with ⟨rfl, -, rfl⟩ | ⟨-, hok, -⟩
  · exact ⟨n, ps, M₁, M₂, ret, m, hprep, hloop, hadd, hret, hsplit⟩
  · cases hok

/-- CARVED: a successful allocation adds one entry with an object and pages of its own. -/
theorem RangeMade.carved {n : Nodes} (hE : Lawful E v live) (hstep : MakesPage v live step)
    (B : Block live M b t) (hf : f ∈ t.a.inorder) (h : RangeMade E v b f start size step plan keepF1 n ps M M') :
    ∃ t', Carved v live b f t t' n.e ⟨start, size, n.o, 0, 2⟩ M M' ∧ M'.obj n.o = ⟨ps, size, 1⟩ ∧
      (n.o ∉ live M.env ∧ n.o ∈ live M'.env) ∧
      ∀ p ∈ ps, p.addr ∉ live M.env ∧ p.addr ∈ live M'.env ∧ p.addr ∉ t'.nodes := by
  obtain ⟨M₁, M₂, ret, m, hprep, hloop, hadd, hret, hsplit⟩ := h
  obtain ⟨htake, hentry⟩ := pages_made hE hstep hprep hloop
  have hnew := htake.new
  have hin : ∀ p ∈ n.list, p ∈ ps.map Page.addr ++ n.list := fun p hp => mem_append_right _ hp
  have ho := hin n.o (by simp [Nodes.list])
  obtain ⟨-, hnl, hps⟩ := nodup_append.mp htake.nodup
  have hon : n.o ∉ [n.f1, n.f0, n.e] := by
    simp only [Nodes.list, nodup_cons, mem_cons, not_mem_nil, or_false, not_or] at hnl ⊢
    exact ⟨Ne.symm hnl.1.2.1, Ne.symm hnl.2.1.1, hnl.2.2.1⟩
  have hsub : [n.f1, n.f0, n.e].Sublist n.list :=
    (((List.Sublist.refl [n.e]).cons n.o).cons_cons n.f0).cons_cons n.f1
  have hhold : Holding v live (· = n.o) M (ps.map Page.addr ++ n.list) (setObj M₂ n.o ⟨ps, size, 1⟩) :=
    ⟨htake.within.mono fun _ _ hf => hf.elim, htake.nodup, htake.new⟩
  have hne : ∀ p ∈ ps.map Page.addr ++ n.list, p ≠ b ∧ p ∉ t.nodes := fun p hp =>
    ⟨fun heq => (hnew p hp).1 (heq ▸ B.home.block), fun hmem => (hnew p hp).1 (B.home.nodes p hmem)⟩
  obtain ⟨t', hcarved, hnodes, hw⟩ :=
    carved_of_split (x := ⟨start, size, n.o, 0, 2⟩) hE B hf hhold (hsub.trans (sublist_append_right _ _))
      (hne _ ho).1 (hne _ ho).2 hon hentry hadd hret hsplit
  -- what was taken and is not put into the block is as it was
  have hout : ∀ p ∈ ps.map Page.addr ++ n.list, p ∉ [n.f1, n.f0, n.e] →
      ¬(p = b ∨ p ∈ t.nodes ∨ p = n.e ∨ p = n.f0 ∨ p = n.f1) := by
    rintro p hp hpn (h | h | h | h | h)
    · exact (hne p hp).1 h
    · exact (hne p hp).2 h
    all_goals exact hpn (by simp [h])
  have houtP : ∀ p ∈ ps, p.addr ∉ [n.f1, n.f0, n.e] := fun p hp hmem =>
    hps _ (mem_map_of_mem hp) _ (hsub.subset hmem) rfl
  refine ⟨t', hcarved, ?_, ⟨(hnew _ ho).1, hw.inUse _ (hnew _ ho).2 (hout _ ho hon)⟩, fun p hp => ?_⟩
  · rw [hw.obj n.o (hnew _ ho).2 (hout _ ho hon)]
    exact setObj_self ..
  · have hmem : p.addr ∈ ps.map Page.addr ++ n.list := mem_append_left _ (mem_map_of_mem hp)
    refine ⟨(hnew _ hmem).1, hw.inUse _ (hnew _ hmem).2 (hout _ hmem (houtP p hp)), fun hin => ?_⟩
    rcases hnodes _ hin with h | h
    · exact (hne _ hmem).2 h
    · exact houtP p hp h

end Range

end Advos.Vmem
