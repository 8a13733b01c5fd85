import Advos.Vmem.Parts

/-! What the address spaces need of their environment, and what the parts of an allocation leave alone.

    The allocator hands out nodes of 64 bytes. A node in use is written by its owner only, so each
    part of an operation is described by the nodes it may have touched:

        Within W M M'       nodes in use in M, other than those of W, are as they were

    and the parts compose: what the second touches must be new or in W already. -/

namespace Advos.Vmem
open Word Function List

variable {σ : Type}

/-- A node of the allocator: it has its size as alignment and keeps clear of the space at `v`. -/
structure NodeAt (v p : ℕ) : Prop where
  pos : 0 < p
  below : p < 2 ^ 64
  aligned : 64 ∣ p
  space : p + 64 ≤ v ∨ v + 56 ≤ p

theorem NodeAt.apart {v p q : ℕ} (hp : NodeAt v p) (hq : NodeAt v q) (hne : p ≠ q) : Apart 64 p q := by
  have hp := hp.aligned
  have hq := hq.aligned
  rcases Nat.lt_or_gt_of_ne hne with h | h
  · exact .inl (by omega)
  · exact .inr (by omega)

/-- The laws of an allocator with the nodes `live` in use: a new node is one that was not, and only
    `free` returns one. -/
structure Lawful (E : Env σ) (v : ℕ) (live : σ → Set ℕ) : Prop where
  alloc_none : ∀ {s u s'}, E.alloc s u = (none, s') → live s' = live s
  alloc_some : ∀ {s u p s'}, E.alloc s u = (some p, s') → p ∉ live s ∧ live s' = insert p (live s)
  free : ∀ s u p, live (E.free s u p).2 = live s \ {p}
  physAlloc : ∀ s k z d, live (E.physAlloc s k z d).2 = live s
  physFree : ∀ s r k z d, live (E.physFree s r k z d) = live s
  map : ∀ s a x p fl, live (E.map s a x p fl).2 = live s
  unmap : ∀ s a x p, live (E.unmap s a x p).2 = live s
  prepare : ∀ s a x n, live (E.prepare s a x n).2 = live s
  node : ∀ {s p}, p ∈ live s → NodeAt v p

/-- Nodes in use in `M` that are not in `W` are still in use in `M'`, with the same contents. -/
structure Within (v : ℕ) (live : σ → Set ℕ) (W : ℕ → Prop) (M M' : Machine σ) : Prop where
  inUse : ∀ p ∈ live M.env, ¬W p → p ∈ live M'.env
  mem : ∀ p ∈ live M.env, ¬W p → ∀ i < 64, M'.mem (p + i) = M.mem (p + i)
  obj : ∀ p ∈ live M.env, ¬W p → M'.obj p = M.obj p
  space : ∀ i < 56, M'.mem (v + i) = M.mem (v + i)

/-- Nothing in use is touched. -/
abbrev Grows (v : ℕ) (live : σ → Set ℕ) (M M' : Machine σ) : Prop := Within v live (fun _ => False) M M'

section
variable {E : Env σ} {v : ℕ} {live : σ → Set ℕ} {W W' : ℕ → Prop} {M M₁ M' : Machine σ}

theorem Within.refl (M : Machine σ) : Within v live W M M :=
  ⟨fun _ hp _ => hp, fun _ _ _ _ _ => rfl, fun _ _ _ => rfl, fun _ _ => rfl⟩

/-- COMPOSE: the second part touches new nodes and those that the first may touch. -/
theorem Within.trans (h : Within v live W M M₁) (h' : Within v live W' M₁ M')
    (hW : ∀ p ∈ live M.env, W' p → W p) : Within v live W M M' where
  inUse p hp hn := h'.inUse p (h.inUse p hp hn) fun hp' => hn (hW p hp hp')
  mem p hp hn i hi :=
    (h'.mem p (h.inUse p hp hn) (fun hp' => hn (hW p hp hp')) i hi).trans (h.mem p hp hn i hi)
  obj p hp hn := (h'.obj p (h.inUse p hp hn) fun hp' => hn (hW p hp hp')).trans (h.obj p hp hn)
  space i hi := (h'.space i hi).trans (h.space i hi)

theorem Within.mono (h : Within v live W M M') (hW : ∀ p ∈ live M.env, W p → W' p) :
    Within v live W' M M' :=
  ⟨fun p hp hn => h.inUse p hp fun hw => hn (hW p hp hw),
    fun p hp hn => h.mem p hp fun hw => hn (hW p hp hw),
    fun p hp hn => h.obj p hp fun hw => hn (hW p hp hw), h.space⟩

theorem Within.grows (h : Within v live W M M₁) (h' : Grows v live M₁ M') : Within v live W M M' :=
  h.trans h' fun _ _ hf => hf.elim

theorem grows_env {s : σ} (h : live s = live M.env) : Grows v live M { M with env := s } :=
  ⟨fun p hp _ => by rw [h]; exact hp, fun _ _ _ _ _ => rfl, fun _ _ _ => rfl, fun _ _ => rfl⟩

theorem within_mem {m : Mem} (h : ∀ p ∈ live M.env, ¬W p → ∀ i < 64, m (p + i) = M.mem (p + i))
    (hv : ∀ i < 56, m (v + i) = M.mem (v + i)) : Within v live W M { M with mem := m } :=
  ⟨fun _ hp _ => hp, h, fun _ _ _ => rfl, hv⟩

theorem within_setObj (o : ℕ) (x : Obj) : Within v live (· = o) M (setObj M o x) :=
  ⟨fun _ hp _ => hp, fun _ _ _ _ _ => rfl, fun _ _ hn => update_of_ne hn .., fun _ _ => rfl⟩

@[simp] theorem setObj_self (M : Machine σ) (o : ℕ) (x : Obj) : (setObj M o x).obj o = x :=
  update_self ..

@[simp] theorem setObj_mem (M : Machine σ) (o : ℕ) (x : Obj) : (setObj M o x).mem = M.mem := rfl

@[simp] theorem setObj_env (M : Machine σ) (o : ℕ) (x : Obj) : (setObj M o x).env = M.env := rfl

theorem within_node (hE : Lawful E v live) {n : ℕ} {m : Mem} (hn : NodeAt v n)
    (h : ∀ a, (a < n ∨ n + 64 ≤ a) → m a = M.mem a) : Within v live (· = n) M { M with mem := m } := by
  refine within_mem (fun p hp hne i hi => h _ ?_) fun i hi => h _ ?_
  · rcases (hE.node hp).apart hn hne with h | h <;> omega
  · rcases hn.space with h | h <;> omega

/-! ### Nodes -/

theorem clear_of_out {m : Mem} {p a : ℕ} (h : a < p ∨ p + 64 ≤ a) : clear m p a = m a := by
  rw [clear, if_neg (by omega)]

theorem freeNode_spec (hE : Lawful E v live) (u : ℕ) {p : ℕ} (hp : NodeAt v p) (M : Machine σ) :
    Within v live (· = p) M (freeNode E u p M) := by
  have hlive := hE.free M.env u p
  have henv : ∀ s, live s = live M.env \ {p} → Within v live (· = p) M { M with env := s } := by
    intro s hs
    refine ⟨fun q hq hne => ?_, fun _ _ _ _ _ => rfl, fun _ _ _ => rfl, fun _ _ => rfl⟩
    rw [hs]
    exact ⟨hq, hne⟩
  rw [freeNode]
  split
  · next s hs =>
    rw [hs] at hlive
    exact henv s hlive
  · next link s hs =>
    rw [hs] at hlive
    have hset : Within v live (· = p) { M with env := s } { M with mem := set M.mem p link, env := s } :=
      within_node hE hp fun a ha => set_of_ne (by omega)
    exact (henv s hlive).trans hset fun q _ heq => heq

theorem freeNode_live (hE : Lawful E v live) (u p : ℕ) (M : Machine σ) :
    live (freeNode E u p M).env = live M.env \ {p} := by
  rw [freeNode_free]
  exact hE.free M.env u p

/-- From `M` to `M'` the nodes `ns` were taken; of those in use before, only `W` is touched. -/
structure Holding (v : ℕ) (live : σ → Set ℕ) (W : ℕ → Prop) (M : Machine σ) (ns : List ℕ)
    (M' : Machine σ) : Prop where
  within : Within v live W M M'
  nodup : ns.Nodup
  new : ∀ p ∈ ns, p ∉ live M.env ∧ p ∈ live M'.env

/-- Nodes are taken and nothing in use is touched. -/
abbrev Takes (v : ℕ) (live : σ → Set ℕ) (M : Machine σ) (ns : List ℕ) (M' : Machine σ) : Prop :=
  Holding v live (fun _ => False) M ns M'

variable {ns ns' : List ℕ}

theorem Within.holding (h : Within v live W M M') : Holding v live W M [] M' :=
  ⟨h, nodup_nil, by simp⟩

theorem takes_trans (h : Takes v live M ns M₁) (h' : Takes v live M₁ ns' M') :
    Takes v live M (ns' ++ ns) M' := by
  refine ⟨h.within.grows h'.within, ?_, fun p hp => ?_⟩
  · refine nodup_append.mpr ⟨h'.nodup, h.nodup, ?_⟩
    rintro p hp q hq rfl
    exact (h'.new p hp).1 (h.new p hq).2
  · rcases mem_append.mp hp with hp | hp
    · exact ⟨fun hM => (h'.new p hp).1 (h.within.inUse p hM id), (h'.new p hp).2⟩
    · exact ⟨(h.new p hp).1, h'.within.inUse p (h.new p hp).2 id⟩

theorem Holding.perm (h : Holding v live W M ns M') (hp : ns'.Perm ns) : Holding v live W M ns' M' :=
  ⟨h.within, hp.nodup_iff.mpr h.nodup, fun p hp' => h.new p (hp.mem_iff.mp hp')⟩

theorem Holding.write (h : Holding v live W M ns M₁) (h' : Within v live W' M₁ M')
    (hW : ∀ p ∈ live M.env, W' p → W p) (hlive : live M'.env = live M₁.env) : Holding v live W M ns M' :=
  ⟨h.within.trans h' hW, h.nodup, fun p hp => ⟨(h.new p hp).1, by rw [hlive]; exact (h.new p hp).2⟩⟩

theorem Holding.free {p : ℕ} (h : Holding v live W M (p :: ns) M₁) (hE : Lawful E v live) (u : ℕ) :
    Holding v live W M ns (freeNode E u p M₁) := by
  obtain ⟨hp, hns⟩ := nodup_cons.mp h.nodup
  obtain ⟨hnew, hlive⟩ := h.new p mem_cons_self
  have hfree := freeNode_spec hE u (hE.node hlive) M₁
  refine ⟨h.within.trans hfree fun q hq heq => (hnew (heq ▸ hq)).elim, hns, fun q hq => ?_⟩
  have hne : q ≠ p := fun heq => hp (heq ▸ hq)
  have hq := h.new q (mem_cons_of_mem _ hq)
  exact ⟨hq.1, hfree.inUse q hq.2 hne⟩

theorem allocNode_spec (hE : Lawful E v live) {u : ℕ} {r : Option ℕ} (h : allocNode E u M = (r, M')) :
    Takes v live M r.toList M' := by
  rw [allocNode] at h
  split at h
  · next s hs =>
    cases h
    exact (grows_env (hE.alloc_none hs)).holding
  · next p s hs =>
    cases h
    obtain ⟨hnew, hlive⟩ := hE.alloc_some hs
    have hp : p ∈ live s := by
      rw [hlive]
      exact Set.mem_insert ..
    have hgrows : Grows v live M { M with env := s } := by
      refine ⟨fun q hq _ => ?_, fun _ _ _ _ _ => rfl, fun _ _ _ => rfl, fun _ _ => rfl⟩
      rw [hlive]
      exact Set.mem_insert_of_mem _ hq
    have hclear : Within v live (· = p) { M with env := s } { M with mem := clear M.mem p, env := s } :=
      within_node hE (hE.node hp) fun a ha => clear_of_out ha
    refine ⟨hgrows.trans hclear fun q hq heq => hnew (heq ▸ hq), nodup_singleton p, fun q hq => ?_⟩
    obtain rfl := mem_singleton.mp hq
    exact ⟨hnew, hp⟩

/-! ### Pages -/

/-- A round of a page loop takes the node of the page it makes. -/
def MakesPage (v : ℕ) (live : σ → Set ℕ) (step : ℕ → Page → Machine σ → Option Page × Machine σ) : Prop :=
  ∀ {x t M r M'}, step x t M = (r, M') → Takes v live M (r.toList.map Page.addr) M'

theorem Paging.live_eq (hE : Lawful E v live) {s s' : σ} (h : Paging E s s') : live s' = live s :=
  h.eq hE.physAlloc hE.physFree hE.map hE.unmap

/-- The nodes `ns` were taken, and no others. -/
structure Taken (v : ℕ) (live : σ → Set ℕ) (M : Machine σ) (ns : List ℕ) (M' : Machine σ) : Prop where
  takes : Takes v live M ns M'
  inUse : live M'.env = live M.env ∪ {p | p ∈ ns}

theorem Taken.refl (M : Machine σ) : Taken v live M [] M :=
  ⟨(Within.refl M).holding, by simp⟩

theorem Taken.trans (h : Taken v live M ns M₁) (h' : Taken v live M₁ ns' M') : Taken v live M (ns' ++ ns) M' := by
  refine ⟨takes_trans h.takes h'.takes, ?_⟩
  rw [h'.inUse, h.inUse]
  ext q
  simp only [Set.mem_union, Set.mem_ofPred_eq, mem_append]
  tauto

theorem Taken.free {p : ℕ} (h : Taken v live M (p :: ns) M₁) (hE : Lawful E v live) (u : ℕ) :
    Taken v live M ns (freeNode E u p M₁) := by
  obtain ⟨hp, -⟩ := nodup_cons.mp h.takes.nodup
  have hnew := (h.takes.new p mem_cons_self).1
  refine ⟨h.takes.free hE u, ?_⟩
  rw [freeNode_live hE, h.inUse]
  ext q
  simp only [Set.mem_sdiff, Set.mem_union, Set.mem_ofPred_eq, Set.mem_singleton_iff, mem_cons]
  constructor
  · rintro ⟨hq | rfl | hq, hne⟩
    · exact .inl hq
    · exact absurd rfl hne
    · exact .inr hq
  · rintro (hq | hq)
    · exact ⟨.inl hq, fun heq => hnew (heq ▸ hq)⟩
    · exact ⟨.inr (.inr hq), fun heq => hp (heq ▸ hq)⟩

theorem Taken.write (h : Taken v live M ns M₁) (h' : Within v live (· ∈ ns) M₁ M') (hlive : live M'.env = live M₁.env) :
    Taken v live M ns M' :=
  ⟨h.takes.write h' (fun p hp hW => absurd hp (h.takes.new p hW).1) hlive, hlive.trans h.inUse⟩

theorem taken_alloc (hE : Lawful E v live) (u : ℕ) (M : Machine σ) : KeptByAlloc E u (Taken v live M) := by
  intro ns M₁ r M' h halloc
  have hs := allocNode_alloc halloc
  refine h.trans ⟨allocNode_spec hE halloc, ?_⟩
  cases r with
  | none => simp [hE.alloc_none hs]
  | some p =>
    rw [(hE.alloc_some hs).2]
    ext q
    simp [or_comm]

theorem taken_free (hE : Lawful E v live) (u : ℕ) (M : Machine σ) : KeptByFree E u (Taken v live M) :=
  fun _ _ _ h => h.free hE u

theorem taken_paging (hE : Lawful E v live) (M : Machine σ) : KeptByPaging E (Taken v live M) := by
  intro ns M₁ s h hs
  have hlive := hs.live_eq hE
  exact h.write (grows_env hlive |>.mono fun _ _ hf => hf.elim) hlive

/-! ### Parts of a call -/

section Parts
variable {u : ℕ}

section
variable (hE : Lawful E v live)
include hE

theorem prepareNodes_taken {r : Option Nodes} (h : prepareNodes E u M = (r, M')) :
    Taken v live M (r.elim [] Nodes.list) M' :=
  prepareNodes_rule (taken_alloc hE u M) (taken_free hE u M) (.refl M) h

theorem prepareNodes_spec {r : Option Nodes} (h : prepareNodes E u M = (r, M')) :
    Takes v live M (r.elim [] Nodes.list) M' := (prepareNodes_taken hE h).takes

theorem prepareEntry_taken {r : Option (ℕ × ℕ × ℕ)} (h : prepareEntry E u M = (r, M')) :
    Taken v live M (r.elim [] fun n => [n.2.2, n.2.1, n.1]) M' :=
  prepareEntry_rule (taken_alloc hE u M) (taken_free hE u M) (.refl M) h

theorem prepareEntry_spec {r : Option (ℕ × ℕ × ℕ)} (h : prepareEntry E u M = (r, M')) :
    Takes v live M (r.elim [] fun n => [n.2.2, n.2.1, n.1]) M' := (prepareEntry_taken hE h).takes

theorem allocPage_taken {x : ℕ} {t : Page} {r : Option Page} (h : allocPage E u x t M = (r, M')) :
    Taken v live M (r.toList.map Page.addr) M' := by
  have htaken := allocPage_rule (taken_alloc hE u M) (taken_free hE u M) (taken_paging hE M) (.refl M) h
  rwa [append_nil] at htaken

theorem allocPage_spec (u : ℕ) : MakesPage v live (allocPage E u) :=
  fun h => (allocPage_taken hE h).takes

theorem wirePage_spec (u : ℕ) : MakesPage v live (wirePage E u) := by
  intro x t M r M' h
  have htaken := wirePage_rule (taken_alloc hE u M) (taken_free hE u M) (taken_paging hE M) (.refl M) h
  rw [append_nil] at htaken
  exact htaken.takes

end

variable {ps : List Page}

/-- TAKEN: a loop takes the nodes of the pages it has made. -/
theorem pageLoop_spec {step : ℕ → Page → Machine σ → Option Page × Machine σ} (hstep : MakesPage v live step)
    {plan : List (ℕ × Page)} {ok : Bool} (h : pageLoop step plan M = (ok, ps, M')) :
    Takes v live M (ps.map Page.addr) M' := by
  refine pageLoop_rule (R := fun M ps M' => Takes v live M (ps.map Page.addr) M') ?_ ?_ ?_ h
  · exact fun M => (Within.refl M).holding
  · exact fun _ hnone => hstep hnone
  · intro x t p ps M M₁ M' _ hsome hrest
    exact (takes_trans (hstep hsome) hrest).perm (perm_append_singleton p.addr (ps.map Page.addr)).symm

/-- Only nodes of `S` are touched; those in `ns` are still to be freed. -/
structure Drops (v : ℕ) (live : σ → Set ℕ) (S : ℕ → Prop) (M : Machine σ) (ns : List ℕ) (M' : Machine σ) : Prop where
  within : Within v live S M M'
  nodes : ∀ p ∈ ns, NodeAt v p ∧ S p

variable {S : ℕ → Prop}

theorem drops_free (hE : Lawful E v live) : KeptByFree E u (Drops v live S M) := by
  intro p ns M' h
  obtain ⟨hp, hS⟩ := h.nodes p mem_cons_self
  refine ⟨h.within.trans (freeNode_spec hE u hp M') ?_, fun q hq => h.nodes q (mem_cons_of_mem _ hq)⟩
  rintro q _ rfl
  exact hS

theorem drops_paging (hE : Lawful E v live) : KeptByPaging E (Drops v live S M) :=
  fun _ _ _ h hs => ⟨h.within.grows (grows_env (hs.live_eq hE)), h.nodes⟩

theorem releaseNodes_spec (hE : Lawful E v live) {n : Nodes} (hn : ∀ p ∈ n.list, NodeAt v p) :
    Within v live (· ∈ n.list) M (releaseNodes E u n M) := by
  have hdrops : Drops v live (· ∈ n.list) M (n.list ++ []) M := ⟨.refl M, fun p hp => ?_⟩
  · exact (releaseNodes_rule (drops_free hE) hdrops).within
  · rw [append_nil] at hp
    exact ⟨hn p hp, hp⟩

theorem drops_pages (hps : ∀ p ∈ ps, NodeAt v p.addr) (M : Machine σ) :
    Drops v live (fun a => ∃ p ∈ ps, a = p.addr) M (ps.map Page.addr ++ []) M := by
  refine ⟨.refl M, fun a ha => ?_⟩
  rw [append_nil] at ha
  obtain ⟨p, hp, rfl⟩ := mem_map.mp ha
  exact ⟨hps p hp, p, hp, rfl⟩

theorem unmapPages_spec (hE : Lawful E v live) {x : ℕ} {freePhys : Bool} (hps : ∀ p ∈ ps, NodeAt v p.addr)
    (h : unmapPages E u freePhys x ps M = .ok M') :
    Within v live (fun a => ∃ p ∈ ps, a = p.addr) M M' :=
  (unmapPages_rule (drops_free hE) (drops_paging hE) (drops_pages hps M) h).within

theorem pagesFree_spec (hE : Lawful E v live) (u : ℕ) (hps : ∀ p ∈ ps, NodeAt v p.addr) (M : Machine σ) :
    Within v live (fun a => ∃ p ∈ ps, a = p.addr) M (pagesFree E u ps M) :=
  (pagesFree_rule (drops_free hE) (drops_paging hE) (drops_pages hps M)).within

end Parts

theorem pagesFree_live (hE : Lawful E v live) (u : ℕ) (ps : List Page) (M : Machine σ) :
    live (pagesFree E u ps M).env = live M.env \ {a | ∃ p ∈ ps, a = p.addr} := by
  induction ps generalizing M with
  | nil => simp [pagesFree]
  | cons p ps ih =>
    rw [pagesFree, ih, freeNode_live hE, hE.physFree]
    ext a
    simp only [Set.mem_sdiff, Set.mem_singleton_iff, Set.mem_ofPred_eq, mem_cons, exists_eq_or_imp, not_or]
    tauto

end

end Advos.Vmem
