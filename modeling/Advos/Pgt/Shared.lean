import Advos.Pgt.Overlay

/-! The kernel's mappings in a process.

    `pgt_refer` lets a process share a 1 GiB region of the kernel: the entry of its PDPT points to the
    kernel's page directory.

        kernel   PML4 ──▶ PDPT ──▶ PD ──▶ …
                                   ▲
        process  PML4 ──▶ PDPT ────┘

    The kernel never gives a page directory back, so what it maps and unmaps there later is seen by both,
    and it writes to no other table of the process. -/

namespace Advos.Pgt
open Linked Function List

/-- `pgt_refer`; both page tables are in one memory. -/
def pgtRefer (t tgt : PageTable) (virtual : ℕ) : ℤ × PageTable :=
  let virtual := align virtual 30
  match lookup tgt (pml4 tgt) (index virtual 39) with
  | none => (-1, t)
  | some pdpt =>
    let e := tgt.mem (slot pdpt (index virtual 30))
    if present e then
      match nextTable t (pml4 t) (index virtual 39) with
      | (none, t) => (-1, t)
      | (some pdpt, t) => mapEntry t (slot pdpt (index virtual 30)) fun x => pointTo x (maskPage e)
    else (-1, t)

/-- The page tables of the kernel and of a process, with the regions that the process refers to. -/
structure Tables where
  kernel : PageTable
  process : PageTable
  one : process.mem = kernel.mem
  refs : List (ℕ × ℕ)

/-- A table put into the memory of another one shares it. -/
theorem PageTable.with_mem (t p : PageTable) : p.mem = { t with mem := p.mem }.mem := rfl

def Tables.setKernel (s : Tables) (t : PageTable) : Tables :=
  ⟨t, { s.process with mem := t.mem }, rfl, s.refs⟩

def Tables.setProcess (s : Tables) (t : PageTable) (refs : List (ℕ × ℕ)) : Tables :=
  ⟨{ s.kernel with mem := t.mem }, t, rfl, refs⟩

/-- `pgt_refer` by the process; the regions that it returned 0 for are noted. -/
def Tables.refer (s : Tables) (v : ℕ) : Tables :=
  let r := pgtRefer s.process s.kernel v
  s.setProcess r.2 (if r.1 = 0 then region v :: s.refs else s.refs)

/-- Buffers for the two: pages apart, at one offset. -/
structure Pair where
  kernel : Buffer
  process : Buffer
  same : process.p2v = kernel.p2v
  apart : kernel.base + 4096 * kernel.nr ≤ process.base ∨ process.base + 4096 * process.nr ≤ kernel.base

/-- The calls of the kernel. -/
def Tables.KernelStep (s s' : Tables) : Prop :=
  ∃ c : Call, c.Allowed s.kernel ∧ s' = s.setKernel (c.run s.kernel).2

/-- Calls of the kernel, of the process in regions that it does not refer to, and `pgt_refer`. -/
inductive Tables.Step : Tables → Tables → Prop
  | kernel {s : Tables} (c : Call) (hok : c.Allowed s.kernel) : Step s (s.setKernel (c.run s.kernel).2)
  | process {s : Tables} (c : Call) (hok : c.Allowed s.process) (hr : region c.virtual ∉ s.refs) :
      Step s (s.setProcess (c.run s.process).2 s.refs)
  | refer {s : Tables} (v : ℕ) (hv : v < 2 ^ 64) : Step s (s.refer v)

/-- A process with a new page table, in any run of the kernel's. -/
def Tables.Start (B : Pair) (s : Tables) : Prop :=
  ∃ t p, Reach B.kernel t ∧ pgtInit t.mem B.process.base B.process.nr B.process.p2v = some p ∧
    s = ⟨{ t with mem := p.mem }, p, rfl, []⟩

def Tables.Reach (B : Pair) (s : Tables) : Prop := ∃ s0, Start B s0 ∧ Relation.ReflTransGen Step s0 s

/-! ### Agreement on the buffer -/

section Agree
variable {b : Buffer} {t t' : PageTable} {used : Used} {fr : List ℕ} {a d x v : ℕ}

theorem Tree.congr (T : Tree b t used fr) (hcr3 : t'.cr3 = t.cr3) (hp2v : t'.p2v = t.p2v) (hfree : t'.free = t.free)
    (hmem : ∀ x, b.Has x → t'.mem x = t.mem x) : Tree b t' used fr where
  cr3 := hcr3.trans T.cr3
  p2v := hp2v.trans T.p2v
  root := T.root
  lt := T.lt
  inj := T.inj
  up := T.up
  slots ha hi := by
    have hword : word b t' _ _ = word b t _ _ := hmem _ (Buffer.has_slot (T.lt ha) hi)
    rw [hword]
    exact T.slots ha hi
  chain := T.chain_congr hfree fun d hd => hmem _ (Buffer.has_slot (T.free_lt hd) (by decide))
  free_ok := T.free_ok
  all := T.all

theorem Tree.view_congr (T : Tree b t used fr) (hmem : ∀ x, b.Has x → t'.mem x = t.mem x) (v : ℕ) :
    view b t' used v = view b t used v := by
  have hword : ∀ {p a i}, used p = some a → i < 512 → word b t' a i = word b t a i := fun ha hi =>
    hmem _ (Buffer.has_slot (T.lt ha) hi)
  cases h3 : used [index v 21, index v 30, index v 39] with
  | some pt => rw [view_pt h3, view_pt h3, hword h3 (index_lt v 12)]
  | none =>
    cases h2 : used [index v 30, index v 39] with
    | some pd => rw [view_pd h3 h2, view_pd h3 h2, hword h2 (index_lt v 21)]
    | none => simp only [view, h3, h2]

theorem pgtInit_outside {mem : ℕ → ℕ} (h : pgtInit mem b.base b.nr b.p2v = some t) (hx : ¬b.Has x) :
    t.mem x = mem x := by
  have hpush : ∀ (l : List ℕ) (u : PageTable), (∀ i ∈ l, i < b.nr) →
      (l.foldl (fun t i => pgtPush t (b.base + i * 4096)) u).mem x = u.mem x := by
    intro l
    induction l with
    | nil => exact fun _ _ => rfl
    | cons i l ih =>
      intro u hl
      rw [foldl_cons, ih _ fun j hj => hl j (mem_cons_of_mem i hj)]
      refine store_outside hx ?_
      have := hl i mem_cons_self
      rw [Buffer.Has]
      omega
  simp only [pgtInit, ge_iff_le, if_pos b.nr_pos, Option.some.injEq] at h
  rw [← h, hpush]
  · refine if_neg fun hpage => hx ?_
    have := b.nr_pos
    rw [Buffer.Has]
    omega
  · intro i hi
    rw [mem_range'_1] at hi
    omega

/-! ### The walk below a directory -/

/-- The walk from the page directory at the physical address `pa`. -/
def walkPd (t : PageTable) (pa v : ℕ) : Option Xlat :=
  let e2 := readEntry t pa (index v 21)
  if !present e2 then none
  else if pageBit e2 then some (leaf e2 21 true true)
  else
    let e1 := readEntry t (frameOf e2 12) (index v 12)
    if !present e1 then none else some (leaf e1 12 (rwBit e2) (usBit e2))

theorem walkPd_congr (hmem : t'.mem = t.mem) (hp2v : t'.p2v = t.p2v) (pa v : ℕ) : walkPd t' pa v = walkPd t pa v := by
  have hread : ∀ pa i, readEntry t' pa i = readEntry t pa i := by
    intro pa i
    rw [readEntry, readEntry, p2v, p2v, hmem, hp2v]
  simp only [walkPd, hread]

/-- A walk through two pointers to tables, the second one into any buffer. -/
theorem walk_tables {b' : Buffer} (ha : a < b.nr) (hd : d < b'.nr)
    (h4 : readEntry t (frameOf t.cr3 12) (index v 39) = b.tableEntry a)
    (h3 : readEntry t (b.physPage a) (index v 30) = b'.tableEntry d) : walk t v = walkPd t (b'.physPage d) v := by
  simp only [walk]
  rw [h4, Buffer.frameOf_tableEntry ha, h3, Buffer.frameOf_tableEntry hd, Buffer.tableEntry_present,
    Buffer.tableEntry_present, Buffer.tableEntry_rw, Buffer.tableEntry_rw, Buffer.tableEntry_us, Buffer.tableEntry_us,
    Buffer.tableEntry_page]
  simp only [Bool.not_true, Bool.false_eq_true, if_false, Bool.true_and, walkPd]

theorem Tree.walk_pd (T : Tree b t used fr) (hd : used [index v 30, index v 39] = some d) :
    walk t v = walkPd t (b.physPage d) v := by
  obtain ⟨-, a, ha⟩ := T.up hd
  refine walk_tables (T.lt ha) (T.lt hd) ?_ ?_
  · rw [T.frameOf_cr3, T.readEntry_eq b.nr_pos, (T.lookup_table ha T.root).1]
  · rw [T.readEntry_eq (T.lt ha), (T.lookup_table hd ha).1]

end Agree

/-! ### The shared state -/

/-- Both page tables are trees, that of the process under entries that point to directories of the kernel. -/
structure Shares (B : Pair) (s : Tables) (usedK : Used) (frK : List ℕ) (u : PageTable) (usedP : Used) (frP : List ℕ)
    (g : ℕ → Option ℕ) : Prop where
  kernel : Tree B.kernel s.kernel usedK frK
  own : Tree B.process u usedP frP
  process : s.process = overlay g u
  foreign : Foreign B.process usedP g s.refs
  refs : ∀ r ∈ s.refs, ∃ a d, usedP [r.2] = some a ∧ usedK [r.1, r.2] = some d ∧
    g (slot (B.process.page a) r.1) = some (B.kernel.tableEntry d)

variable {B : Pair} {s s' : Tables} {usedK usedP used₁ : Used} {frK frP fr₁ : List ℕ} {u t₁ : PageTable}
  {g g' : ℕ → Option ℕ} {x v : ℕ}

theorem Pair.not_both (h : B.kernel.Has x) : ¬B.process.Has x := by
  have := B.apart
  simp only [Buffer.Has] at *
  omega

theorem Foreign.outside {b : Buffer} {used : Used} {fr : List ℕ} {R : List (ℕ × ℕ)} (T : Tree b u used fr)
    (F : Foreign b used g R) (hx : ¬b.Has x) : g x = none := by
  cases hg : g x with
  | none => rfl
  | some w =>
    obtain ⟨r, -, a, ha, hlt, rfl⟩ := F x w hg
    exact absurd (Buffer.has_slot (T.lt ha) hlt) hx

namespace Shares

variable (S : Shares B s usedK frK u usedP frP g)
include S

/-- The process sees what the kernel has in the regions that it refers to. -/
theorem agree (hr : region v ∈ s.refs) : walk s.kernel v = walk s.process v := by
  obtain ⟨a, d, ha, hd, hg⟩ := S.refs _ hr
  have hp : walk s.process v = walkPd s.process (B.kernel.physPage d) v := by
    refine walk_tables (S.own.lt ha) (S.kernel.lt hd) ?_ ?_
    · have hslot := S.foreign.level S.own S.own.root (by simp) (index_lt v 39)
      rw [← S.own.p2v_physPage B.process.nr_pos] at hslot
      have hroot : frameOf s.process.cr3 12 = B.process.physPage 0 := by
        rw [S.process]
        exact S.own.frameOf_cr3
      rw [hroot, S.process, readEntry]
      refine (overlay_mem hslot).trans ?_
      exact (S.own.readEntry_eq B.process.nr_pos).trans (S.own.lookup_table ha S.own.root).1
    · rw [S.process, readEntry]
      have hbase : p2v (overlay g u) (B.process.physPage a) = B.process.page a := S.own.p2v_physPage (S.own.lt ha)
      have hover : (overlay g u).mem (slot (B.process.page a) (index v 30)) =
          (g (slot (B.process.page a) (index v 30))).getD (u.mem (slot (B.process.page a) (index v 30))) := rfl
      rw [hbase, hover]
      exact congrArg (fun o : Option ℕ => o.getD _) hg
  have hp2v : s.process.p2v = s.kernel.p2v := by
    rw [S.process, S.kernel.p2v, ← B.same]
    exact S.own.p2v
  rw [hp, walkPd_congr s.one hp2v, S.kernel.walk_pd hd]

/-- In the other regions a walk of the process stays in its own tables. -/
theorem walk_own (hr : region v ∉ s.refs) : walk s.process v = view B.process u usedP v := by
  rw [S.process, overlay_walk S.own S.foreign hr, S.own.walk_eq]

/-- STEP: the kernel changes its tables. -/
theorem kernel_moves {t' : PageTable} {usedK' : Used} {frK' : List ℕ}
    (hmoves : Moves B.kernel ⟨s.kernel, usedK, frK⟩ ⟨t', usedK', frK'⟩) : ∃ u',
    Shares B (s.setKernel t') usedK' frK' u' usedP frP g ∧
      ∀ v, view B.process u' usedP v = view B.process u usedP v := by
  classical
  -- the pages of the process are not written
  have hsame : ∀ x, B.process.Has x → t'.mem x = s.process.mem x := by
    intro x hx
    rw [s.one]
    exact hmoves.outside S.kernel fun h => B.not_both h hx
  obtain ⟨u', hu'⟩ : ∃ u' : PageTable,
      u' = { u with mem := fun x => if B.process.Has x then u.mem x else t'.mem x } := ⟨_, rfl⟩
  have hmem : ∀ x, B.process.Has x → u'.mem x = u.mem x := by
    intro x hx
    rw [hu']
    exact if_pos hx
  have hcr3 : u'.cr3 = u.cr3 := by rw [hu']
  have hp2v : u'.p2v = u.p2v := by rw [hu']
  have hfree : u'.free = u.free := by rw [hu']
  refine ⟨u', ⟨hmoves.tree S.kernel, S.own.congr hcr3 hp2v hfree hmem, ?_, S.foreign, ?_⟩, S.own.view_congr hmem⟩
  · have hprocess : s.process = overlay g u := S.process
    simp only [Tables.setKernel, hprocess, overlay, PageTable.mk.injEq, hcr3, hp2v, hfree, true_and]
    funext x
    by_cases hx : B.process.Has x
    · rw [hsame x hx, hprocess, hmem x hx]
      rfl
    · rw [S.foreign.outside S.own hx, Option.getD_none, hu']
      exact (if_neg hx).symm
  · intro r hr
    obtain ⟨a, d, ha, hd, hg⟩ := S.refs r hr
    exact ⟨a, d, ha, hmoves.dirs (by simp) hd, hg⟩

theorem kernel_step {c : Call} (hok : c.Allowed s.kernel) : ∃ usedK' frK' u',
    Shares B (s.setKernel (c.run s.kernel).2) usedK' frK' u' usedP frP g ∧
      ∀ v, view B.process u' usedP v = view B.process u usedP v := by
  obtain ⟨usedK', frK', hmoves, -⟩ := c.outcome S.kernel hok
  exact ⟨usedK', frK', S.kernel_moves hmoves⟩

section
variable (hmoves : Moves B.process ⟨u, usedP, frP⟩ ⟨t₁, used₁, fr₁⟩)
include hmoves

/-- The kernel's tree stays while the process changes its own pages. -/
theorem kernel_tree (hg : ∀ x, ¬B.process.Has x → g' x = none) :
    Tree B.kernel { s.kernel with mem := (overlay g' t₁).mem } usedK frK := by
  refine S.kernel.congr rfl rfl rfl fun x hx => ?_
  have hx' := fun h => B.not_both hx h
  have hold : s.kernel.mem x = u.mem x := by
    rw [← s.one, S.process, overlay_mem (S.foreign.outside S.own hx')]
  exact (overlay_mem (hg x hx')).trans ((hmoves.outside S.own hx').trans hold.symm)

/-- STEP: the process changes its own tables. -/
theorem process_step :
    Shares B (s.setProcess (overlay g t₁) s.refs) usedK frK t₁ used₁ fr₁ g where
  kernel := S.kernel_tree hmoves fun _ => S.foreign.outside S.own
  own := hmoves.tree S.own
  process := rfl
  foreign := S.foreign.moves hmoves
  refs r hr := by
    obtain ⟨a, d, ha, hd, hg⟩ := S.refs r hr
    exact ⟨a, d, hmoves.dirs (by simp) ha, hd, hg⟩

/-- STEP: a new entry that points to a directory of the kernel. -/
theorem link_step {a d : ℕ} (ha : used₁ [index v 39] = some a) (hd : usedK [index v 30, index v 39] = some d) :
    Shares B (s.setProcess (overlay (update g (slot (B.process.page a) (index v 30))
      (some (B.kernel.tableEntry d))) t₁) (region v :: s.refs)) usedK frK t₁ used₁ fr₁
      (update g (slot (B.process.page a) (index v 30)) (some (B.kernel.tableEntry d))) := by
  have T1 := hmoves.tree S.own
  have F1 : Foreign B.process used₁ g s.refs := S.foreign.moves hmoves
  have hF : Foreign B.process used₁ (update g (slot (B.process.page a) (index v 30))
      (some (B.kernel.tableEntry d))) (region v :: s.refs) := by
    intro x w hx
    by_cases hslot : x = slot (B.process.page a) (index v 30)
    · exact ⟨region v, mem_cons_self, a, ha, index_lt v 30, hslot⟩
    · rw [update_of_ne hslot] at hx
      obtain ⟨r, hr, e, he, hlt, heq⟩ := F1 x w hx
      exact ⟨r, mem_cons_of_mem _ hr, e, he, hlt, heq⟩
  refine ⟨S.kernel_tree hmoves fun x => hF.outside T1, T1, rfl, hF, ?_⟩
  intro r hr
  by_cases hnew : r = region v
  · subst hnew
    exact ⟨a, d, ha, hd, update_self ..⟩
  · obtain ⟨e, f, he, hf, hg⟩ := S.refs r ((mem_cons.mp hr).resolve_left hnew)
    have he1 := hmoves.dirs (by simp) he
    refine ⟨e, f, he1, hf, ?_⟩
    rw [update_of_ne, hg]
    intro heq
    obtain ⟨rfl, h30⟩ := Buffer.slot_inj (S.kernel.up hf).1 (index_lt v 30) heq
    exact hnew (Prod.ext h30 (List.cons.inj (T1.inj he1 ha)).1)

end

/-- The region is not shared now: the kernel has no directory for it, there is no page for a PDPT, or the
    entry of the process is taken. -/
def NotShared (s : Tables) (usedK usedP : Used) (frP : List ℕ) (v : ℕ) : Prop :=
  usedK [index v 30, index v 39] = none ∨ usedP [index v 39] = none ∧ frP = [] ∨ region v ∈ s.refs ∨
    usedP [index v 30, index v 39] ≠ none

/-- `pgt_refer` returns -1 and maybe adds a PDPT, or 0 and links a directory of the kernel in. -/
theorem pgtRefer_cases (hv : v < 2 ^ 64) :
    ∃ t₁ used₁ fr₁, Moves B.process ⟨u, usedP, frP⟩ ⟨t₁, used₁, fr₁⟩ ∧ Along (· = [index v 39]) usedP used₁ ∧
      frP.length ≤ fr₁.length + (if usedP [index v 39] = none then 1 else 0) ∧
      (NotShared s usedK usedP frP v ∧ pgtRefer s.process s.kernel v = (-1, overlay g t₁) ∨
        ∃ a d, used₁ [index v 39] = some a ∧ usedK [index v 30, index v 39] = some d ∧ region v ∉ s.refs ∧
          pgtRefer s.process s.kernel v = (0, overlay (update g (slot (B.process.page a) (index v 30))
            (some (B.kernel.tableEntry d))) t₁)) := by
  have h39 : index (align v 30) 39 = index v 39 := index_align hv (by decide)
  have h30 : index (align v 30) 30 = index v 30 := index_align hv le_rfl
  have T := S.kernel
  simp only [pgtRefer, h39, h30, T.pml4_eq]
  cases h4 : usedK [index v 39] with
  | none =>
    rw [lookup_zero (T.no_leaf T.root (index_lt v 39) (by decide) h4)]
    exact ⟨u, usedP, frP, .refl, .refl, Nat.le_add_right .., .inl ⟨.inl (T.used_none h4), by rw [← S.process]⟩⟩
  | some c =>
  simp only [(T.lookup_table h4 T.root).2]
  cases h3 : usedK [index v 30, index v 39] with
  | none =>
    have hzero : s.kernel.mem (slot (B.kernel.page c) (index v 30)) = 0 := T.no_leaf h4 (index_lt v 30) (by simp) h3
    rw [hzero]
    exact ⟨u, usedP, frP, .refl, .refl, Nat.le_add_right .., .inl ⟨.inl h3, by rw [← S.process]; rfl⟩⟩
  | some d =>
  have hentry : s.kernel.mem (slot (B.kernel.page c) (index v 30)) = B.kernel.tableEntry d := (T.lookup_table h3 h4).1
  rw [hentry, Buffer.tableEntry_present, if_pos rfl, Buffer.maskPage_tableEntry (T.lt h3)]
  have hpml4 : pml4 s.process = B.process.page 0 := by
    rw [S.process]
    exact S.own.pml4_eq
  rw [hpml4, S.process,
    overlay_nextTable (S.foreign.level S.own S.own.root (by simp) (index_lt v 39)) (S.foreign.free_page S.own)]
  -- the PDPT of the process, there or new
  obtain ⟨t₁, used₁, fr₁, hmoves, halong, hlen, hnext⟩ : ∃ t₁ used₁ fr₁, Moves B.process ⟨u, usedP, frP⟩ ⟨t₁, used₁, fr₁⟩ ∧
      Along (· = [index v 39]) usedP used₁ ∧ frP.length ≤ fr₁.length + (if usedP [index v 39] = none then 1 else 0) ∧
      (usedP [index v 39] = none ∧ frP = [] ∧ nextTable u (B.process.page 0) (index v 39) = (none, t₁) ∨
        ∃ a, nextTable u (B.process.page 0) (index v 39) = (some (B.process.page a), t₁) ∧ used₁ [index v 39] = some a) := by
    rcases nextTable_cases S.own S.own.root (index_lt v 39) (S.own.no_leaf S.own.root (index_lt v 39) (by decide)) with
      ⟨a, ha, h⟩ | hnone | ⟨a, fr, rfl, hu, -, h⟩
    · exact ⟨u, usedP, frP, .refl, .refl, Nat.le_add_right .., .inr ⟨a, h, ha⟩⟩
    · exact ⟨u, usedP, frP, .refl, .refl, Nat.le_add_right .., .inl hnone⟩
    · refine ⟨_, _, fr, .single (.link S.own.root (index_lt v 39) (by decide) hu), .link, ?_,
        .inr ⟨a, h, update_self ..⟩⟩
      rw [if_pos hu, length_cons]
  have T1 := hmoves.tree S.own
  refine ⟨t₁, used₁, fr₁, hmoves, halong, hlen, ?_⟩
  rcases hnext with ⟨hu, hfr, h⟩ | ⟨a, h, ha⟩
  · rw [h]
    exact .inl ⟨.inr (.inl ⟨hu, hfr⟩), rfl⟩
  rw [h]
  have F1 := S.foreign.moves hmoves
  by_cases hr : region v ∈ s.refs
  · -- the region is referred to already
    obtain ⟨a', d', ha', -, hg⟩ := S.refs _ hr
    obtain rfl : a' = a := Option.some.inj ((hmoves.dirs (by simp) ha').symm.trans ha)
    have hmem : (overlay g t₁).mem (slot (B.process.page a') (index v 30)) = B.kernel.tableEntry d' :=
      congrArg (fun o : Option ℕ => o.getD _) hg
    refine .inl ⟨.inr (.inr (.inl hr)), ?_⟩
    simp only [mapEntry, hmem, Buffer.tableEntry_present, if_true]
  · have hslot := F1.other T1 ha (index_lt v 30) hr
    simp only [overlay_mapEntry hslot]
    rcases mapEntry_cases T1 ha (index_lt v 30) fun x => pointTo x (B.kernel.physPage d) with h | ⟨hw, -, h⟩
    · refine .inl ⟨.inr (.inr (.inr fun hnone => ?_)), by rw [h]⟩
      have hnone1 : used₁ [index v 30, index v 39] = none := by
        cases hu : used₁ [index v 30, index v 39] with
        | none => rfl
        | some e =>
          rcases halong _ _ hu with hu | heq
          · rw [hnone] at hu
            cases hu
          · exact absurd (congrArg List.length heq) (by simp)
      have hzero : t₁.mem (slot (B.process.page a) (index v 30)) = 0 := T1.no_leaf ha (index_lt v 30) (by simp) hnone1
      rw [mapEntry, hzero] at h
      cases h
    · rw [h, pointTo_zero Buffer.physPage_aligned]
      refine .inr ⟨a, d, ha, rfl, hr, congrArg (Prod.mk 0) ?_⟩
      simp only [overlay, store, PageTable.mk.injEq, true_and]
      funext x
      by_cases hx : x = slot (B.process.page a) (index v 30)
      · subst hx
        simp only [hslot, update_self, Option.getD_none, Option.getD_some]
        rfl
      · simp only [update_of_ne hx]

end Shares

/-- The state is shared in some way. -/
def Sharing (B : Pair) (s : Tables) : Prop := ∃ usedK frK u usedP frP g, Shares B s usedK frK u usedP frP g

/-- STEP: every step keeps the sharing. -/
theorem Sharing.step (h : Sharing B s) (hstep : s.Step s') : Sharing B s' := by
  obtain ⟨usedK, frK, u, usedP, frP, g, S⟩ := h
  cases hstep with
  | kernel c hok =>
    obtain ⟨usedK', frK', u', S', -⟩ := S.kernel_step hok
    exact ⟨usedK', frK', u', usedP, frP, g, S'⟩
  | process c hok hr =>
    rw [S.process] at hok
    obtain ⟨hok', hrun⟩ := c.run_overlay S.own S.foreign hok hr
    obtain ⟨used₁, fr₁, hmoves, -⟩ := c.outcome S.own hok'
    rw [S.process, hrun]
    exact ⟨usedK, frK, _, used₁, fr₁, g, S.process_step hmoves⟩
  | refer v hv =>
    obtain ⟨t₁, used₁, fr₁, hmoves, -, -, ⟨-, h⟩ | ⟨a, d, ha, hd, -, h⟩⟩ := S.pgtRefer_cases hv
    · simp only [Tables.refer, h]
      exact ⟨usedK, frK, t₁, used₁, fr₁, g, S.process_step hmoves⟩
    · simp only [Tables.refer, h]
      exact ⟨usedK, frK, t₁, used₁, fr₁, _, S.link_step hmoves ha hd⟩

theorem Sharing.start (h : s.Start B) : Sharing B s := by
  obtain ⟨t, p, hreach, hinit, rfl⟩ := h
  obtain ⟨usedK, frK, T, -⟩ := hreach.shape
  refine ⟨usedK, frK, p, _, _, fun _ => none, ?_, pgtInit_tree hinit, rfl, nofun, nofun⟩
  exact T.congr rfl rfl rfl fun x hx => pgtInit_outside (t := p) hinit (B.not_both hx)

theorem Tables.Reach.sharing (h : Tables.Reach B s) : Sharing B s := by
  obtain ⟨s0, h0, hrun⟩ := h
  exact Run.invariant hrun (Sharing.start h0) fun _ _ h hstep => h.step hstep

/-- RUN: calls of the kernel keep the sharing, and the translation of the process in its other regions. -/
theorem Sharing.kernel_run (h : Sharing B s) (hrun : Relation.ReflTransGen Tables.KernelStep s s') :
    Sharing B s' ∧ s'.refs = s.refs ∧ ∀ a, region a ∉ s.refs → walk s'.process a = walk s.process a := by
  refine Run.invariant (P := fun s' => Sharing B s' ∧ s'.refs = s.refs ∧
    ∀ a, region a ∉ s.refs → walk s'.process a = walk s.process a) hrun ⟨h, rfl, fun _ _ => rfl⟩ ?_
  rintro s1 _ ⟨⟨usedK, frK, u, usedP, frP, g, S⟩, hrefs, hwalk⟩ ⟨c, hok, rfl⟩
  obtain ⟨usedK', frK', u', S', hview⟩ := S.kernel_step hok
  refine ⟨⟨usedK', frK', u', usedP, frP, g, S'⟩, hrefs, fun a ha => ?_⟩
  have ha1 : region a ∉ s1.refs := by rwa [hrefs]
  rw [S'.walk_own ha1, hview, ← S.walk_own ha1, hwalk a ha]

/-- After `pgt_refer` returns 0 and any calls of the kernel, both page tables translate the addresses of
    the region alike, as those of the regions before; elsewhere the process has the translation that it
    had. -/
theorem refer_in_sync (h : Tables.Reach B s) (hv : v < 2 ^ 64) (hret : (pgtRefer s.process s.kernel v).1 = 0)
    (hrun : Relation.ReflTransGen Tables.KernelStep (s.refer v) s') :
    region v ∈ s'.refs ∧ (∀ a, region a ∈ s'.refs → walk s'.kernel a = walk s'.process a) ∧
      ∀ a, region a ∉ s'.refs → walk s'.process a = walk (s.refer v).process a := by
  have href : (s.refer v).refs = region v :: s.refs := if_pos hret
  obtain ⟨⟨usedK, frK, u, usedP, frP, g, S⟩, hrefs, hwalk⟩ := (h.sharing.step (.refer v hv)).kernel_run hrun
  refine ⟨?_, fun a ha => S.agree ha, fun a ha => hwalk a (by rwa [← hrefs])⟩
  rw [hrefs, href]
  exact List.mem_cons_self ..

/-- Four pages at 1 MiB for the kernel, four at 2 MiB for the process. -/
def twoBuffers : Pair where
  kernel := fourPages
  process := ⟨0x200000, 4, 0, fourPages.nr_pos, by decide, fourPages.offset, by decide, by decide⟩
  same := rfl
  apart := by decide

/-- A page of the kernel at 1 GiB, and a process with a new page table. -/
def onePage : Option Tables := do
  let t ← pgtInit (fun _ => 0) fourPages.base fourPages.nr fourPages.p2v
  let t := (pgtMap t 0x40000000 0x3000 0 0 1 0).2
  let p ← pgtInit t.mem 0x200000 4 0
  return ⟨{ t with mem := p.mem }, p, rfl, []⟩

/-- The kernel maps a page after the process refers to its region; the process has it. -/
theorem refer_in_sync_next_page : ∃ s, onePage = some s ∧ Tables.Reach twoBuffers s ∧
    (pgtRefer s.process s.kernel 0x40000000).1 = 0 ∧
    ∃ s', Relation.ReflTransGen Tables.KernelStep (s.refer 0x40000000) s' ∧
      walk s'.process 0x40001234 = some ⟨0x5000, 4096, true, false⟩ := by
  obtain ⟨s, hs⟩ : ∃ s, onePage = some s := ⟨_, rfl⟩
  have hreach : Tables.Reach twoBuffers s := by
    cases hs
    refine ⟨_, ⟨_, _, ⟨fun _ => 0, _, rfl, .single ⟨.map 0x40000000 0x3000 0 0 1 0, ?_, rfl⟩⟩, rfl, rfl⟩, .refl⟩
    exact ⟨by decide, by decide, fun _ ⟨x, hx, _⟩ => by cases hx⟩
  have hret : (pgtRefer s.process s.kernel 0x40000000).1 = 0 := by
    cases hs
    decide +kernel
  have hok : (Call.map 0x40001000 0x5000 0 0 1 0).Allowed (s.refer 0x40000000).kernel := by
    refine ⟨by decide, by decide, fun _ ⟨x, hx, _⟩ => ?_⟩
    have hnone : walk (s.refer 0x40000000).kernel 0x40001000 = none := by
      cases hs
      decide +kernel
    rw [hnone] at hx
    cases hx
  have hrun : Relation.ReflTransGen Tables.KernelStep (s.refer 0x40000000) _ := .single ⟨_, hok, rfl⟩
  obtain ⟨href, hsync, -⟩ := refer_in_sync hreach (by decide) hret hrun
  refine ⟨s, hs, hreach, hret, _, hrun, ?_⟩
  rw [← hsync 0x40001234 href]
  cases hs
  decide +kernel

end Advos.Pgt
