import Advos.Vmem.Ledger
import Advos.Vmem.Wire

/-! What a call that returns NULL has left behind.

    A range at a given address needs four nodes, and for every page a node, a frame and a mapping. An
    error of the loop unmaps the pages so far and returns their nodes, but not their frames:

        nodes   e o f0 f1 | p0      p1      p2
        frames            |    r0      r1      x        r0 and r1 are lost
        map               |      m0      m1

    An entry on an object is in the block, and counted by the object, before its pages are made. When
    there are none for it the call returns NULL and the entry stays. -/

namespace Advos.Vmem
open SearchTree List

variable {σ : Type} {E : Env σ} {v u p : ℕ} {live : σ → Set ℕ} {M M₁ M' : Machine σ} {ns ns' : List ℕ}

/-! ### The nodes in use -/

theorem Taken.perm (h : Taken v live M ns M') (hp : ns'.Perm ns) : Taken v live M ns' M' := by
  refine ⟨h.takes.perm hp, ?_⟩
  rw [h.inUse]
  ext q
  simp only [Set.mem_union, Set.mem_ofPred_eq, hp.mem_iff]

variable {ps : List Page}

/-- TAKEN: a loop takes the nodes of the pages it has made. -/
theorem pageLoop_taken (hE : Lawful E v live) {plan : List (ℕ × Page)} {ok : Bool}
    (h : pageLoop (allocPage E u) plan M = (ok, ps, M')) : Taken v live M (ps.map Page.addr) M' := by
  refine pageLoop_rule (R := fun M ps M' => Taken v live M (ps.map Page.addr) M') .refl ?_ ?_ h
  · exact fun _ hnone => allocPage_taken hE hnone
  · intro x t p ps M M₁ M' _ hsome hrest
    exact ((allocPage_taken hE hsome).trans hrest).perm (perm_append_singleton p.addr (ps.map Page.addr)).symm

/-- RETURNED: the unwinding frees the nodes of the pages. -/
theorem unmapPages_taken (hE : Lawful E v live) {x : ℕ} {freePhys : Bool}
    (h : Taken v live M (ps.map Page.addr ++ ns) M₁) (hunmap : unmapPages E u freePhys x ps M₁ = .ok M') :
    Taken v live M ns M' :=
  unmapPages_rule (taken_free hE u M) (taken_paging hE M) h hunmap

theorem Taken.entry {n : Nodes} (h : Taken v live M n.list M₁) (hE : Lawful E v live) (start size : ℕ) :
    Taken v live M n.list (withEntry M₁ n start size) := by
  have he : n.e ∈ n.list := by simp [Nodes.list]
  have ho : n.o ∈ n.list := by simp [Nodes.list]
  have hset : Within v live (· = n.e) M₁ { M₁ with mem := setEntry M₁.mem n.e start size n.o 0 2 } :=
    within_node hE (hE.node (h.takes.new n.e he).2) fun a ha => setEntry_of_out ha
  exact (h.write (hset.mono fun _ _ heq => heq ▸ he) rfl).write ((within_setObj n.o _).mono fun _ _ heq => heq ▸ ho) rfl

theorem Taken.released {n : Nodes} (h : Taken v live M n.list M₁) (hE : Lawful E v live) (u : ℕ) :
    Taken v live M [] (releaseNodes E u n M₁) := by
  have hheld : Taken v live M (n.list ++ []) M₁ := by rwa [append_nil]
  exact releaseNodes_rule (taken_free hE u M) hheld

/-! ### What is granted -/

/-- There is a node, a frame and a mapping for the page `t` at `x`. -/
def grantsPage (E : Env σ) (v arch fl x : ℕ) (t : Page) (s : σ) : Bool :=
  match E.alloc s v with
  | (none, _) => false
  | (some p, s) =>
    match E.physAlloc s t.order t.zone t.numadomain with
    | (none, _) => false
    | (some r, s) => 0 ≤ (E.map s arch x { t with addr := p, physical := r } fl).1

/-- The first page of `plan` is granted, if there is one. -/
def grantsFirst (E : Env σ) (v arch fl : ℕ) (plan : List (ℕ × Page)) (s : σ) : Bool :=
  match plan with
  | [] => true
  | (x, t) :: _ => grantsPage E v arch fl x t s

theorem allocPage_grants (hE : Lawful E v live) {x : ℕ} {t : Page} {r : Option Page} (h : allocPage E v x t M = (r, M')) :
    grantsPage E v (M.mem (v + 48)) (M.mem (v + 40)) x t M.env = r.isSome := by
  rcases allocPage_cases h with ⟨rfl, hnode⟩ | ⟨p, M₁, hnode, hcases⟩
  · rw [grantsPage, allocNode_alloc hnode]
    rfl
  have hspace := (allocNode_spec hE hnode).within.space
  rw [grantsPage, allocNode_alloc hnode, ← hspace 48 (by decide), ← hspace 40 (by decide)]
  dsimp only
  rcases hcases with ⟨s, hs, rfl, -⟩ | ⟨page, s, ret, s', hs, hpage, hmap, hcases⟩
  · rw [hs]
    rfl
  rw [hs]
  dsimp only
  rw [← hpage, hmap]
  rcases hcases with ⟨hneg, rfl, -⟩ | ⟨hpos, rfl, -⟩
  · simpa using hneg
  · simpa using hpos

/-- A loop makes its first page, if that is granted, and no page otherwise. -/
theorem pageLoop_first (hE : Lawful E v live) {plan : List (ℕ × Page)} {ok : Bool}
    (h : pageLoop (allocPage E v) plan M = (ok, ps, M')) :
    grantsFirst E v (M.mem (v + 48)) (M.mem (v + 40)) plan M.env = true ∧ (plan = [] ∨ ps ≠ []) ∨
    grantsFirst E v (M.mem (v + 48)) (M.mem (v + 40)) plan M.env = false ∧ ok = false ∧ ps = [] ∧
      ∃ x t rest, plan = (x, t) :: rest ∧ allocPage E v x t M = (none, M') := by
  cases plan with
  | nil => exact .inl ⟨rfl, .inl rfl⟩
  | cons y plan =>
    obtain ⟨x, t⟩ := y
    rcases pageLoop_cons h with ⟨rfl, rfl, hnone⟩ | ⟨p, qs, M₁, hsome, -, rfl⟩
    · exact .inr ⟨allocPage_grants hE hnone, rfl, rfl, x, t, plan, rfl, hnone⟩
    · exact .inl ⟨allocPage_grants hE hsome, .inr (cons_ne_nil p qs)⟩

end Advos.Vmem

namespace Advos.Space
open Vmem Word Pgt SearchTree

variable {σ : Type} {E : Env σ} {v : ℕ} {live : σ → Set ℕ} {buf : Buffer}

/-! ### The state around an address space -/

/-- The environment with a page table and a ledger of the frames. -/
abbrev watched (E : Env σ) : Env ((σ × PageTable) × Ledger) := noted (paged E)

theorem watched_lawful (hE : Lawful E v live) : Lawful (watched E) v fun s => live s.1.1 :=
  recorded_lawful (paged_lawful hE) ledger

theorem watched_tabled (E : Env σ) : Tabled (watched E) fun s => s.1.2 :=
  ⟨fun _ _ => rfl, fun _ _ _ => rfl, fun _ _ _ _ => rfl, fun _ _ _ _ _ => rfl, fun _ _ _ _ _ => rfl,
    fun _ _ _ _ => rfl, fun _ _ _ _ => rfl⟩

/-- Free intervals and entries, the nodes in use, the frames that are out and the translations are as they
    were. -/
structure Restored (live : σ → Set ℕ) (st : St ((σ × PageTable) × Ledger)) (T : ℕ → Forest)
    (M' : Machine ((σ × PageTable) × Ledger)) : Prop where
  trees : ∀ d ∈ st.made, Trees d.b M'.mem (T d.b).a (T d.b).s (T d.b).e
  frees : ∀ d ∈ st.made, Kept 16 (T d.b).a.inorder st.mach.mem M'.mem
  entries : ∀ d ∈ st.made, Kept 40 (T d.b).e.inorder st.mach.mem M'.mem
  nodes : live M'.env.1.1 = live st.mach.env.1.1
  frames : M'.env.2 = st.mach.env.2
  translation : ∀ y, walk M'.env.1.2 y = walk st.mach.env.1.2 y

variable {st : St ((σ × PageTable) × Ledger)} {T : ℕ → Forest} {M' : Machine ((σ × PageTable) × Ledger)}

theorem Restored.of_taken (I : Intact v (fun s => live s.1.1) st T) (h : Taken v (fun s => live s.1.1) st.mach [] M')
    (hframes : M'.env.2 = st.mach.env.2) (hwalk : ∀ y, walk M'.env.1.2 y = walk st.mach.env.1.2 y) :
    Restored live st T M' where
  trees d hd := ((I.block hd).same h.takes.within).trees
  frees d hd := ((I.block hd).same h.takes.within).keptA
  entries d hd := ((I.block hd).same h.takes.within).keptE
  nodes := by simpa using h.inUse
  frames := hframes
  translation := hwalk

/-! ### Ranges -/

section Range
variable {τ : Type} {F : Env τ} {tab : τ → PageTable} {M M₁ N : Machine τ}

theorem allocPage_none_walk (H : Tabled F tab) (hformed : Formed buf (tab M.env)) {x : ℕ} {t : Page} (ht : t.order = 0)
    (h : allocPage F v x t M = (none, N)) (y : ℕ) : walk (tab N.env) y = walk (tab M.env) y := by
  rcases allocPage_cases h with ⟨-, hnode⟩ | ⟨p, M₁, hnode, hcases⟩
  · rw [H.allocated hnode]
  rw [← H.allocated hnode] at hformed ⊢
  have hphys := H.physAlloc M₁.env t.order t.zone t.numadomain
  rcases hcases with ⟨s, hs, -, rfl⟩ | ⟨page, s, ret, s', hs, hpage, hmap, ⟨hneg, -, rfl⟩ | ⟨-, hr, -⟩⟩
  · rw [hs] at hphys
    rw [H.freed, hphys]
  · rw [hs] at hphys
    dsimp only at hphys ⊢
    rw [← hphys] at hformed ⊢
    have hret := H.map s (M₁.mem (v + 48)) x page (M₁.mem (v + 40))
    have hord : page.order = 0 := by rw [hpage, ht]
    rw [hmap, hord] at hret
    rw [H.physFree, H.freed]
    dsimp only
    obtain ⟨rfl, htab⟩ := Prod.mk.inj hret
    rw [htab]
    exact hformed.archMap_refused hneg y
  · cases hr

/-- A range that keeps its frames after an error has taken those of the pages it has made. -/
theorem range_frames {F : Env τ} {M M₁ N : Machine (τ × Ledger)} {b f start size : ℕ} {plan : List (ℕ × Page)}
    {keepF1 ok : Bool} {n : Nodes} (hprep : prepareNodes (noted F) v M = (some n, M₁))
    (h : allocRange (noted F) v b f start size (allocPage (noted F) v) plan false keepF1 M = .ok (ok, N)) :
    ∃ mapped ps M₂, pageLoop (allocPage (noted F) v) plan (withEntry M₁ n start size) = (mapped, ps, M₂) ∧
      N.env.2 = ⟨framesOf ps + M.env.2.out, M.env.2.bad⟩ := by
  have H : Inert (noted F) Prod.snd := recorded_inert F ledger
  rcases allocRange_cases h with ⟨-, hnone⟩ | ⟨n', M1', mapped, ps, M₂, hprep', hloop, hcases⟩
  · rw [hprep] at hnone
    cases (Prod.mk.inj hnone).1
  obtain ⟨heq, rfl⟩ := Prod.mk.inj (hprep.symm.trans hprep')
  cases heq
  have hnodes : M₁.env.2 = M.env.2 := H.prepareNodes hprep
  have htaken : M₂.env.2 = ⟨framesOf ps + M.env.2.out, M.env.2.bad⟩ := by
    rw [(pageLoop_notes (allocPage_notes v) hloop).1, ← hnodes]
    rfl
  have hundone : ∀ {M3 : Machine (τ × Ledger)}, Undone (noted F) v n ps start false M3 N → M3.env.2 = M₂.env.2 →
      N.env.2 = M₂.env.2 := by
    rintro M3 ⟨M4, hunmap, rfl⟩ h3
    have hkeep : M4.env.2 = ⟨M3.env.2.out, M3.env.2.bad⟩ := unmapPages_notes (by simp [taken]) hunmap
    rw [H.releaseNodes, hkeep, ← h3]
  refine ⟨mapped, ps, M₂, hloop, ?_⟩
  rw [← htaken]
  rcases hcases with ⟨-, -, hu⟩ | ⟨-, ret, m, -, ⟨-, -, hu⟩ | ⟨-, done, M3, hsplit, ⟨-, -, rfl⟩ | ⟨-, -, hu⟩⟩⟩
  · exact hundone hu rfl
  · exact hundone hu rfl
  · have hrest := H.splitFree hsplit
    exact hrest
  · have hrest := H.splitFree hsplit
    exact hundone hu hrest

end Range

/-- A range that is not even granted its first page leaves everything as it was. -/
theorem range_restored {b f start size : ℕ} {plan : List (ℕ × Page)} {keepF1 ok : Bool} (hE : Lawful E v live)
    (I : Intact v (fun s => live s.1.1) st T) (hformed : Formed buf st.mach.env.1.2) (hplan : ∀ x ∈ plan, x.2.order = 0)
    (hno : grantsNodes (watched E) v (grantsFirst (watched E) v (st.mach.mem (v + 48)) (st.mach.mem (v + 40)) plan) 4
      st.mach.env = false)
    (h : allocRange (watched E) v b f start size (allocPage (watched E) v) plan false keepF1 st.mach = .ok (ok, M')) :
    Restored live st T M' := by
  have hL := watched_lawful hE
  have H : Inert (watched E) Prod.snd := recorded_inert (paged E) ledger
  have HT := watched_tabled E
  rcases allocRange_cases h with ⟨-, hnone⟩ | ⟨n, M₁, mapped, ps, M₂, hprep, hloop, hcases⟩
  · have htab := HT.inert.prepareNodes hnone
    exact .of_taken I (prepareNodes_taken hL hnone) (H.prepareNodes hnone) fun y => by rw [htab]
  rw [prepareNodes_grants hprep, Option.isSome_some, Bool.true_and] at hno
  rcases pageLoop_first hL hloop with ⟨hyes, -⟩ | ⟨-, rfl, rfl, x, t, rest, rfl, hpage⟩
  · rw [withEntry_space hL hprep (by decide), withEntry_space hL hprep (by decide)] at hyes
    exact Bool.noConfusion (hyes.symm.trans hno)
  have hnodes : Taken v (fun s => live s.1.1) st.mach n.list M₁ := prepareNodes_taken hL hprep
  have hM2 : Taken v (fun s => live s.1.1) st.mach n.list M₂ := (hnodes.entry hL start size).trans (allocPage_taken hL hpage)
  have hM3 : Taken v (fun s => live s.1.1) st.mach n.list (setObj M₂ n.o ⟨[], size, 1⟩) :=
    hM2.write ((within_setObj n.o _).mono fun _ _ heq => heq ▸ by simp [Nodes.list]) rfl
  rcases hcases with ⟨-, -, M4, hunmap, rfl⟩ | ⟨hmapped, -⟩
  swap
  · cases hmapped
  cases hunmap
  have htab := HT.inert.prepareNodes hprep
  have hwalk := allocPage_none_walk HT (htab ▸ hformed)
    (hplan _ List.mem_cons_self) hpage
  refine .of_taken I (hM3.released hL v) ?_ fun y => ?_
  · rw [H.releaseNodes]
    have hpage := (allocPage_notes v hpage).1
    simp only [taken, Option.toList_none, framesOf_nil, Bool.false_eq_true, if_false, zero_add] at hpage
    have hnodes : M₁.env.2 = st.mach.env.2 := H.prepareNodes hprep
    exact hpage.trans hnodes
  · have hrelease := HT.inert.releaseNodes v n (setObj M₂ n.o ⟨[], size, 1⟩)
    exact (congrArg (fun t => walk t y) hrelease).trans ((hwalk y).trans (congrArg (fun t => walk t y) htab))

/-! ### `virt_memory_alloc_pages_addr` -/

section Addr
variable {virtual nr zone domain : ℕ}

/-- The checks pass, and there are four nodes and what the first page needs. -/
def StartsAt {τ : Type} (F : Env τ) (v virtual nr zone domain : ℕ) (M : Machine τ) : Prop :=
  (∃ b f, AddrChecks v virtual nr M b f) ∧
    grantsNodes F v (grantsFirst F v (M.mem (v + 48)) (M.mem (v + 40)) (virtMemoryAllocPagesAddr.plan virtual nr zone domain))
      4 M.env = true

theorem plan_order {x : ℕ × Page} (hx : x ∈ virtMemoryAllocPagesAddr.plan virtual nr zone domain) : x.2.order = 0 := by
  obtain ⟨i, -, rfl⟩ := List.mem_map.mp hx
  rfl

/-- With no page to make, the range is allocated when it has its nodes. -/
theorem range_empty {τ : Type} {F : Env τ} {live : τ → Set ℕ} {st : St τ} {T : ℕ → Forest} {N : Machine τ} {b f : ℕ}
    {ok : Bool} (hF : Lawful F v live) (S : Tidy v live st T) (hchecks : AddrChecks v virtual 0 st.mach b f)
    (hvirtual : virtual ≠ 0) (hoff : OffZeroAt v st virtual 0)
    (hgranted : grantsNodes F v (fun _ => true) 4 st.mach.env = true)
    (h : allocRange F v b f virtual (mul64 0 4096) (allocPage F v) [] false false st.mach = .ok (ok, N)) : ok = true := by
  obtain ⟨d, hd, rfl, hf⟩ := findFree_sound hF S.intact hchecks.2.1
  have hsize : mul64 0 4096 = 0 := by simp [mul64]
  have hpaged := (S.whole d hd f (List.mem_append_left _ hf)).2
  have h64 : 64 ∣ 4096 := by decide
  rw [hsize] at h
  -- without pages it does not matter how they are made
  have h : allocRange F v d.b f virtual 0 (wirePage F v) [] false false st.mach = .ok (ok, N) := h
  refine allocRange_granted hF (S.intact.block hd) hf (fun r hr => ⟨?_, hoff d.b f hchecks.2.1 r hr⟩)
    ⟨h64.trans hchecks.1, hvirtual⟩ ?_ h
  · exact h64.trans (rest_paged hpaged ⟨hchecks.1, dvd_zero _⟩ hr).1
  · rw [grants_eq]
    exact hgranted

/-- A call that returns NULL has left everything as it was if and only if it has failed its checks, or has
    not been given four nodes and what the first page needs. -/
theorem alloc_pages_addr_restores (hE : Lawful E v live) (S : Tidy v (fun s => live s.1.1) st T)
    (hformed : Formed buf st.mach.env.1.2) (hempty : nr = 0 → virtual ≠ 0 ∧ OffZeroAt v st virtual 0)
    (h : virtMemoryAllocPagesAddr (watched E) v virtual nr zone domain st.mach = .ok (0, M')) :
    Restored live st T M' ↔ ¬StartsAt (watched E) v virtual nr zone domain st.mach := by
  have hL := watched_lawful hE
  have I := S.intact
  rcases virtMemoryAllocPagesAddr_cases h with ⟨-, rfl, hfail⟩ | ⟨b, f, ok, hchecks, hrange, hr⟩
  · refine ⟨fun _ hstart => ?_, fun _ => .of_taken I (Taken.refl _) rfl fun _ => rfl⟩
    obtain ⟨⟨b, f, hchecks⟩, -⟩ := hstart
    exact hfail b f hchecks
  constructor
  · rintro hrestored ⟨-, hgranted⟩
    obtain ⟨⟨r, M₁⟩, hprep⟩ : ∃ x, prepareNodes (watched E) v st.mach = x := ⟨_, rfl⟩
    have hfirst := hgranted
    rw [prepareNodes_grants hprep, Bool.and_eq_true] at hfirst
    obtain ⟨n, rfl⟩ := Option.isSome_iff_exists.mp hfirst.1
    obtain ⟨mapped, ps, M₂, hloop, hframes⟩ := range_frames hprep hrange
    rcases pageLoop_first hL hloop with ⟨-, hnil | hps⟩ | ⟨hno, -⟩
    · -- no page is asked for: the entry is made, and its address is not 0
      obtain rfl : nr = 0 := by simpa [Job.plan, virtMemoryAllocPagesAddr.plan] using hnil
      have hok := range_empty hL S hchecks (hempty rfl).1 (hempty rfl).2 hgranted hrange
      rw [hok, if_pos rfl] at hr
      exact (hempty rfl).1 hr.symm
    · have hout := congrArg Ledger.out (hframes.symm.trans hrestored.frames)
      exact hps (framesOf_eq_zero.mp (add_eq_right.mp hout))
    · rw [withEntry_space hL hprep (by decide), withEntry_space hL hprep (by decide)] at hno
      exact Bool.noConfusion (hno.symm.trans hfirst.2)
  · intro hstart
    refine range_restored hE I hformed (fun x => plan_order) ?_ hrange
    exact Bool.eq_false_iff.mpr fun hgranted => hstart ⟨⟨b, f, hchecks⟩, hgranted⟩

end Addr

/-! ### `virt_memory_alloc_entry` -/

section Entry
variable {o addr size offset flags : ℕ}

/-- Once it has its nodes the call adds the entry, and the object counts it. -/
theorem allocEntryIn_counted {τ : Type} {F : Env τ} {live : τ → Set ℕ} {st : St τ} {T : ℕ → Forest} {N : Machine τ}
    {b f r : ℕ} (hF : Lawful F v live) (S : Tidy v live st T) (ho : o ∈ st.objs)
    (hchecks : EntryChecks v o addr size offset st.mach b f) (haddr : addr ≠ 0) (hoff : OffZeroAt v st addr size)
    (hgranted : grantsNodes F v (fun _ => true) 3 st.mach.env = true)
    (h : allocEntryIn F v b f o addr size offset flags st.mach = .ok (r, N)) :
    (N.obj o).refs = (st.mach.obj o).refs + 1 := by
  obtain ⟨⟨h4096, hs4096, -⟩, hfind, -⟩ := hchecks
  obtain ⟨d, hd, rfl, hf⟩ := findFree_sound hF S.intact hfind
  have B := S.intact.block hd
  have h64 : 64 ∣ 4096 := by decide
  rcases allocEntryIn_cases h with ⟨-, hnone⟩ | ⟨e, f0, f1, M₁, ret, m, hprep, hadd, hcases⟩
  · rw [prepareEntry_grants hnone] at hgranted
    cases hgranted
  have hfilled : Takes v live st.mach [f1, f0, e] { M₁ with mem := setEntry M₁.mem e addr size o offset flags } :=
    prepareEntry_filled hF hprep
  rcases hcases with ⟨-, hneg, -⟩ | ⟨hret, done, M₂, hsplit, htrue, hfalse⟩
  · -- the entry would be refused only at address 0
    have hword : setEntry M₁.mem e addr size o offset flags e = addr :=
      congrArg Entry.start (setEntry_entryAt M₁.mem e addr size o offset flags)
    exact absurd ((B.grows hfilled.within).entryAdd_refused hF (hfilled.spare B (by simp)) hword (h64.trans h4096) hadd hneg)
      haddr
  · have hpaged := (S.whole d hd f (List.mem_append_left _ hf)).2
    have hrest : r = 0 → ∀ p ∈ rest (span st.mach.mem f) (addr, size), 64 ∣ p.1 ∧ p.1 ≠ 0 := fun _ p hp =>
      ⟨h64.trans (rest_paged hpaged ⟨h4096, hs4096⟩ hp).1, hoff d.b f hfind p hp⟩
    obtain ⟨t', pages, -, -, -, -, hobj, -⟩ :=
      allocEntryIn_made hF B hf (S.intact.spare_object (.inl ho) hd) hrest hprep hadd hret hsplit htrue hfalse
    rw [hobj]

/-- A call that returns NULL has left everything, the object too, as it was if and only if it has failed its
    checks or has not been given three nodes. -/
theorem alloc_entry_restores (hE : Lawful E v live) (S : Tidy v (fun s => live s.1.1) st T) (ho : o ∈ st.objs)
    (haddr : addr ≠ 0) (hoff : OffZeroAt v st addr size)
    (h : virtMemoryAllocEntry (watched E) v o addr size offset flags st.mach = .ok (0, M')) :
    Restored live st T M' ∧ M'.obj o = st.mach.obj o ↔
      ¬((∃ b f, EntryChecks v o addr size offset st.mach b f) ∧
        grantsNodes (watched E) v (fun _ => true) 3 st.mach.env = true) := by
  have hL := watched_lawful hE
  have I := S.intact
  rcases virtMemoryAllocEntry_cases h with ⟨-, rfl, hfail⟩ | ⟨b, f, hchecks, hin⟩
  · refine ⟨fun _ hstart => ?_, fun _ => ⟨.of_taken I (Taken.refl _) rfl fun _ => rfl, rfl⟩⟩
    obtain ⟨⟨b, f, hchecks⟩, -⟩ := hstart
    exact hfail b f hchecks
  constructor
  · rintro ⟨-, hobj⟩ ⟨-, hgranted⟩
    have hrefs := allocEntryIn_counted hL S ho hchecks haddr hoff hgranted hin
    rw [hobj] at hrefs
    omega
  · intro hstart
    have hno : grantsNodes (watched E) v (fun _ => true) 3 st.mach.env = false :=
      Bool.eq_false_iff.mpr fun hgranted => hstart ⟨⟨b, f, hchecks⟩, hgranted⟩
    rcases allocEntryIn_cases hin with ⟨-, hnone⟩ | ⟨e, f0, f1, M₁, ret, m, hprep, -⟩
    · have H : Inert (watched E) Prod.snd := recorded_inert (paged E) ledger
      have htab := (watched_tabled E).inert.prepareEntry hnone
      have htaken : Taken v (fun s => live s.1.1) st.mach [] M' := prepareEntry_taken hL hnone
      refine ⟨.of_taken I htaken (H.prepareEntry hnone) fun y => by rw [htab], ?_⟩
      exact htaken.takes.within.obj o (I.separate.inUse (Owner.object o) (.inl ho) (.inl rfl)) id
    · rw [prepareEntry_grants hprep] at hno
      cases hno

end Entry

/-! ### Runs -/

/-- A machine before the first call, with a page table of four pages and an empty ledger. -/
def blankWatched : Machine ((Supply × PageTable) × Ledger) :=
  ⟨fun _ => 0, fun _ => ⟨[], 0, 0⟩, blankPaged.env, ⟨0, false⟩⟩

/-- The space with one block, of 1 GiB; there is one page left for a page table. -/
def oneWatched : St ((Supply × PageTable) × Ledger) :=
  after (watched supply) ⟨blankWatched, [], []⟩ (.blockAdd 0x40000000 0x7fffffff)

/-- The space with two blocks, of 1 GiB each; no page is left for a page table. -/
def twoWatched : St ((Supply × PageTable) × Ledger) :=
  after (watched supply) oneWatched (.blockAdd 0x80000000 0xbfffffff)

theorem twoWatched_run : Relation.ReflTransGen (Step (watched supply) 0x1000 fun st op => op.Fits 0x1000 st)
    ⟨blankWatched, [], []⟩ twoWatched := by
  have h1 : Step (watched supply) 0x1000 (fun st op => op.Fits 0x1000 st) ⟨blankWatched, [], []⟩ oneWatched :=
    step_after ⟨by decide, by decide⟩ trivial (by decide +kernel)
  have h2 : Step (watched supply) 0x1000 (fun st op => op.Fits 0x1000 st) oneWatched twoWatched :=
    step_after ⟨by decide, by decide⟩ trivial (by decide +kernel)
  exact (Relation.ReflTransGen.single h1).tail h2

theorem oneWatched_formed : Formed fourPages oneWatched.mach.env.1.2 :=
  after_blockAdd_formed (watched_tabled supply) blankPaged_formed (by decide +kernel)

theorem twoWatched_formed : Formed fourPages twoWatched.mach.env.1.2 :=
  after_blockAdd_formed (watched_tabled supply) oneWatched_formed (by decide +kernel)

/-- One page, when there is no page table for it. -/
theorem alloc_pages_addr_restores_one_page : ∃ T M',
    virtMemoryAllocPagesAddr (watched supply) 0x1000 0x40000000 1 1 0 twoWatched.mach = .ok (0, M') ∧
    Restored Supply.inUse twoWatched T M' := by
  obtain ⟨T, S⟩ := sound_run (M := blankWatched) (watched_lawful supply_lawful) rfl twoWatched_run
  have hno : ¬StartsAt (watched supply) 0x1000 0x40000000 1 1 0 twoWatched.mach := fun h => absurd h.2 (by decide +kernel)
  have hret : (virtMemoryAllocPagesAddr (watched supply) 0x1000 0x40000000 1 1 0 twoWatched.mach).toOption.map Prod.fst =
      some 0 := by decide +kernel
  match hrun : virtMemoryAllocPagesAddr (watched supply) 0x1000 0x40000000 1 1 0 twoWatched.mach, hret with
  | .ok (r, M'), hret =>
    obtain rfl : r = 0 := Option.some.inj hret
    exact ⟨T, M', rfl, (alloc_pages_addr_restores supply_lawful S.tidy twoWatched_formed
      (fun h => absurd h one_ne_zero) hrun).mpr hno⟩

/-- Two pages, when there is a page table for the first one only: its frame is lost. -/
theorem frame_of_first_page_lost : ∃ M',
    virtMemoryAllocPagesAddr (watched supply) 0x1000 0x401ff000 2 1 0 oneWatched.mach = .ok (0, M') ∧
    oneWatched.mach.env.2.out = 0 ∧ M'.env.2.out = {(0x1000000, 0, 1, 0)} := by
  have hret : (virtMemoryAllocPagesAddr (watched supply) 0x1000 0x401ff000 2 1 0 oneWatched.mach).toOption.map
      (fun r => (r.1, r.2.env.2.out)) = some (0, {(0x1000000, 0, 1, 0)}) := by decide +kernel
  match hrun : virtMemoryAllocPagesAddr (watched supply) 0x1000 0x401ff000 2 1 0 oneWatched.mach, hret with
  | .ok (r, M'), hret =>
    obtain ⟨hr, hout⟩ := Prod.mk.inj (Option.some.inj hret)
    obtain rfl : r = 0 := hr
    exact ⟨M', rfl, by decide +kernel, hout⟩

/-- The two blocks, and an object of one page. -/
def objectWatched : St ((Supply × PageTable) × Ledger) := after (watched supply) twoWatched (.allocObject 0x1000)

theorem objectWatched_objs : objectWatched.objs = [0x10100] := by decide +kernel

/-- An entry for the second page of an object that has one. -/
theorem alloc_entry_restores_past_object : ∃ T M',
    virtMemoryAllocEntry (watched supply) 0x1000 0x10100 0x40000000 0x1000 0x1000 2 objectWatched.mach = .ok (0, M') ∧
    Restored Supply.inUse objectWatched T M' ∧ M'.obj 0x10100 = objectWatched.mach.obj 0x10100 := by
  have hstep : Step (watched supply) 0x1000 (fun st op => op.Fits 0x1000 st) twoWatched objectWatched :=
    step_after (by decide : 0x1000 < 2 ^ 64) trivial (by decide +kernel)
  obtain ⟨T, S⟩ := sound_run (M := blankWatched) (watched_lawful supply_lawful) rfl (twoWatched_run.tail hstep)
  have hmem : 0x10100 ∈ objectWatched.objs := by
    rw [objectWatched_objs]
    exact List.mem_singleton_self _
  have hfind : findFree 0x1000 0x40000000 objectWatched.mach.mem = .ok (some (0x10000, 0x10040)) := by decide +kernel
  have hoff : OffZeroAt 0x1000 objectWatched 0x40000000 0x1000 := by
    intro b f h
    obtain ⟨rfl, rfl⟩ := Prod.mk.inj (Option.some.inj (Except.ok.inj (hfind.symm.trans h)))
    decide +kernel
  have hret : (virtMemoryAllocEntry (watched supply) 0x1000 0x10100 0x40000000 0x1000 0x1000 2
      objectWatched.mach).toOption.map Prod.fst = some 0 := by decide +kernel
  match hrun : virtMemoryAllocEntry (watched supply) 0x1000 0x10100 0x40000000 0x1000 0x1000 2 objectWatched.mach, hret with
  | .ok (r, M'), hret =>
    obtain rfl : r = 0 := Option.some.inj hret
    refine ⟨T, M', rfl, (alloc_entry_restores supply_lawful S.tidy hmem (by decide) hoff hrun).mpr ?_⟩
    rintro ⟨⟨b, f, -, -, -, hsize⟩, -⟩
    exact absurd hsize (by decide +kernel)

/-- An entry when there is no page table for its page: the call returns NULL, the entry is in the block and
    the object counts it. -/
theorem entry_without_pages_stays : ∃ M',
    virtMemoryAllocEntry (watched supply) 0x1000 0x10100 0x40000000 0x1000 0 2 objectWatched.mach = .ok (0, M') ∧
    findStart 0x1000 0x40000000 objectWatched.mach.mem = .ok none ∧ (objectWatched.mach.obj 0x10100).refs = 0 ∧
    findStart 0x1000 0x40000000 M'.mem = .ok (some (0x10000, 0x10140)) ∧ (M'.obj 0x10100).refs = 1 := by
  have hret : (virtMemoryAllocEntry (watched supply) 0x1000 0x10100 0x40000000 0x1000 0 2
      objectWatched.mach).toOption.map (fun r => (r.1, findStart 0x1000 0x40000000 r.2.mem, (r.2.obj 0x10100).refs)) =
      some (0, .ok (some (0x10000, 0x10140)), 1) := by decide +kernel
  match hrun : virtMemoryAllocEntry (watched supply) 0x1000 0x10100 0x40000000 0x1000 0 2 objectWatched.mach, hret with
  | .ok (r, M'), hret =>
    obtain ⟨hr, hrest⟩ := Prod.mk.inj (Option.some.inj hret)
    obtain rfl : r = 0 := hr
    obtain ⟨hfind, hrefs⟩ := Prod.mk.inj hrest
    exact ⟨M', rfl, by decide +kernel, by decide +kernel, hfind, hrefs⟩

end Advos.Space
