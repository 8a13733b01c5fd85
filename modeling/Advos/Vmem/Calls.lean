import Advos.Vmem.Intact

/-! What the calls on an address space do when they return: which block and which structure they find,
    and the part that they go on with.

    The two allocations at any address try the blocks one after the other, and go on to the next one
    until a block gives a pointer. -/

namespace Advos.Space
open Vmem SearchTree Word

variable {σ : Type} {E : Env σ} {v : ℕ} {live : σ → Set ℕ} {st : St σ} {T : ℕ → Forest} {M M' : Machine σ}

/-! ### Searches -/

section Search
variable (hE : Lawful E v live) (I : Intact v live st T)
include hE I

theorem findBlock_sound {addr b : ℕ} (h : findBlock v addr st.mach.mem = .ok (some b)) :
    ∃ d ∈ st.made, d.b = b ∧ st.mach.mem b ≤ addr ∧ addr ≤ st.mach.mem (b + 8) := by
  obtain ⟨bs, hbs, hmade⟩ := I.chain
  have hlen : bs.length < fuel := length_lt_fuel hbs.nodup fun b hb => by
    obtain ⟨d, hd, rfl⟩ := hmade b hb
    have hnode := hE.node (I.block hd).home.block
    exact ⟨hnode.pos, hnode.below⟩
  rw [findBlock, hbs.walk_eq hlen.le] at h
  have hfind : bs.find? _ = some b := Except.ok.inj h
  obtain ⟨d, hd, rfl⟩ := hmade b (List.mem_of_find?_eq_some hfind)
  have hin := List.find?_some hfind
  exact ⟨d, hd, rfl, by simpa using hin⟩

theorem findFree_sound {addr b f : ℕ} (h : findFree v addr st.mach.mem = .ok (some (b, f))) :
    ∃ d ∈ st.made, d.b = b ∧ f ∈ (T b).a.inorder := by
  rw [findFree] at h
  obtain ⟨r, hb, h⟩ := returned h
  cases r with
  | none => cases h
  | some b' =>
    obtain ⟨d, hd, rfl, -⟩ := findBlock_sound hE I hb
    obtain ⟨r, hf, h⟩ := returned h
    cases r with
    | none => cases h
    | some f' =>
      obtain ⟨rfl, rfl⟩ := Prod.mk.inj (Option.some.inj (Except.ok.inj h))
      rw [(I.trees d hd).findFreeEntry_eq] at hf
      exact ⟨d, hd, rfl, (BTree.search_sound (Except.ok.inj hf)).1⟩

theorem findStart_sound {addr b e : ℕ} (h : findStart v addr st.mach.mem = .ok (some (b, e))) :
    ∃ d ∈ st.made, d.b = b ∧ e ∈ (T b).e.inorder ∧ st.mach.mem e = addr := by
  rw [findStart] at h
  obtain ⟨r, hb, h⟩ := returned h
  cases r with
  | none => cases h
  | some b' =>
    obtain ⟨d, hd, rfl, -⟩ := findBlock_sound hE I hb
    obtain ⟨r, he, h⟩ := returned h
    cases r with
    | none => cases h
    | some e' =>
      have h := Except.ok.inj h
      split at h
      · cases h
      next hstart =>
      cases h
      rw [(I.trees d hd).findEntry_eq] at he
      exact ⟨d, hd, rfl, (BTree.search_sound (Except.ok.inj he)).1, (not_not.mp hstart).symm⟩

omit hE in
theorem searchFitSize_sound {d : Made} (hd : d ∈ st.made) {sz f : ℕ}
    (h : searchFitSize d.b sz st.mach.mem = .ok (some f)) :
    f ∈ (T d.b).a.inorder ∧ sz ≤ st.mach.mem (f + 8) := by
  rw [(I.trees d hd).searchFitSize_eq] at h
  rcases BTree.search_fit_sound (Except.ok.inj h) with h | ⟨hf, hsz⟩
  · cases h
  · exact ⟨(I.trees d hd).mem_stree.mp hf, hsz⟩

end Search

theorem searchFitSize_congr {b : ℕ} {t : Forest} {m m' : Mem} (H : Trees b m t.a t.s t.e)
    (H' : Trees b m' t.a t.s t.e) (hk : Kept 16 t.a.inorder m m') (sz : ℕ) :
    searchFitSize b sz m' = searchFitSize b sz m := by
  rw [H.searchFitSize_eq, H'.searchFitSize_eq]
  congr 2
  refine BTree.search_congr (fun y hy => ?_) none
  have hword := hk y (H.mem_stree.mp hy) 8 (by decide)
  funext s
  simp only [BTree.fit, hword]

/-! ### Ranges as changes -/

section Range
variable {d : Made} {f start size : ℕ} {step : ℕ → Page → Machine σ → Option Page × Machine σ}
  {plan : List (ℕ × Page)} {keepF1 : Bool}

theorem rangeMade_backed {n : Nodes} {ps : List Page} (hE : Lawful E v live) (hstep : MakesPage v live step)
    (I : Intact v live st T) (hd : d ∈ st.made) (hf : f ∈ (T d.b).a.inorder)
    (h : RangeMade E v d.b f start size step plan keepF1 n ps st.mach M') :
    ∃ t', Carved v live d.b f (T d.b) t' n.e ⟨start, size, n.o, 0, 2⟩ st.mach M' ∧
      Backed live st (T d.b) t' n.o M' ∧ n.o ∉ live st.mach.env ∧ M'.obj n.o = ⟨ps, size, 1⟩ := by
  obtain ⟨t', hcarved, hobj, ho, hps⟩ := h.carved hE hstep (I.block hd) hf
  refine ⟨t', hcarved, ⟨ho.2, fun hmem => ?_, .inl ⟨ho.1, by rw [hobj]⟩, fun p hp => ?_⟩, ho.1, hobj⟩
  · obtain ⟨used, hpa, -, hused⟩ := hcarved.frees
    rcases List.mem_append.mp hmem with hmem | hmem
    · rcases List.mem_append.mp (hpa.mem_iff.mp hmem) with hmem | hmem
      · exact (hused n.o hmem).2.2 rfl
      · exact ho.1 ((I.block hd).home.nodes n.o (List.mem_append_left _ (List.mem_of_mem_erase hmem)))
    · rcases List.mem_cons.mp (hcarved.entries.mem_iff.mp hmem) with heq | hmem
      · exact hcarved.new.2.2 heq.symm
      · exact ho.1 ((I.block hd).home.nodes n.o (List.mem_append_right _ hmem))
  · rw [hobj] at hp
    obtain ⟨hnew, hlive, hout⟩ := hps p hp
    exact ⟨hlive, hout, fun h => absurd h hnew⟩

theorem allocEntryIn_backed {o addr offset flags r : ℕ} (hE : Lawful E v live) (I : Intact v live st T)
    (hd : d ∈ st.made) (hf : f ∈ (T d.b).a.inorder) (ho : o ∈ st.objs)
    (hrest : r = 0 → ∀ p ∈ rest (span st.mach.mem f) (addr, size), 64 ∣ p.1 ∧ p.1 ≠ 0)
    (h : allocEntryIn E v d.b f o addr size offset flags st.mach = .ok (r, M')) :
    r = 0 ∧ Same v live d.b (T d.b) st.mach M' ∨
    ∃ t' e, Carved v live d.b f (T d.b) t' e ⟨addr, size, o, offset, flags⟩ st.mach M' ∧
      EntryMade E v d.b f ⟨addr, size, o, offset, flags⟩ e r st.mach M' ∧ Backed live st (T d.b) t' o M' := by
  have hown : Owner.object o ∈ owners st T := .inl ho
  have hgone : ∀ p, Gone st.mach o p → p ∈ live st.mach.env ∧ ¬(p = d.b ∨ p ∈ (T d.b).nodes) := fun p hp =>
    ⟨I.separate.inUse _ hown hp, I.object_ne hown hd hp⟩
  refine (allocEntryIn_carved hE (I.block hd) hf (I.spare_object hown hd) hrest h).imp id ?_
  rintro ⟨t', e, pages, hcarved, hmade, hlive, hout, hobj, hps⟩
  refine ⟨t', e, hcarved, hmade, hlive, hout, .inr ⟨ho, by rw [hobj]⟩, fun p hp => ?_⟩
  rw [hobj] at hp
  rcases hps p hp with hp | ⟨h1, h2, h3⟩
  · have hg : Gone st.mach o p.addr := .inr ⟨p, hp, rfl⟩
    obtain ⟨hin, hnot⟩ := hgone _ hg
    refine ⟨?_, fun hmem => hnot (.inr (hcarved.old _ hmem hin)), fun _ => .inr ⟨ho, hg⟩⟩
    rcases eq_or_ne p.addr o with heq | hne
    · rw [heq]
      exact hlive
    · refine hcarved.within.inUse _ hin ?_
      rintro (h | h | h)
      · exact hnot (.inl h)
      · exact hnot (.inr h)
      · exact hne h
  · exact ⟨h1, h2, fun h => .inl (h3 h)⟩

end Range

/-! ### Ranges with an object of their own -/

/-- A range that is allocated, by each of the four functions that give it an object of its own. -/
inductive Job
  | addr (virtual nr zone domain : ℕ)
  | wire (virtual nr physical : ℕ)
  | pages (start nr zone domain : ℕ)
  | wire2 (start nr physical : ℕ)

namespace Job

def start : Job → ℕ
  | addr virtual _ _ _ => virtual
  | wire virtual _ _ => virtual
  | pages start _ _ _ => start
  | wire2 start _ _ => start

def nr : Job → ℕ
  | addr _ nr _ _ => nr
  | wire _ nr _ => nr
  | pages _ nr _ _ => nr
  | wire2 _ nr _ => nr

/-- Start and size. -/
def range (j : Job) : ℕ × ℕ := (j.start, mul64 j.nr 4096)

/-- The frames are given. -/
def wired : Job → Bool
  | addr .. => false
  | wire .. => true
  | pages .. => false
  | wire2 .. => true

/-- The range is at any address: then an error returns the frames of the pages, and `f1` is kept when
    the range is at the start of the interval. -/
def any : Job → Bool
  | addr .. => false
  | wire .. => false
  | pages .. => true
  | wire2 .. => true

def plan : Job → List (ℕ × Page)
  | addr virtual nr zone domain => virtMemoryAllocPagesAddr.plan virtual nr zone domain
  | wire virtual nr physical => wirePlan nr virtual physical (add64 virtual (mul64 nr 4096))
  | pages start nr zone domain =>
    (blockPlan start nr).map fun x => (x.1, ⟨0, x.2.1, 0, 2, zone % 2 ^ 8, x.2.2, domain % 2 ^ 32⟩)
  | wire2 start nr physical =>
    (blockPlan start nr).mapIdx fun i x => (x.1, ⟨0, x.2.1, add64 physical (mul64 i (2 ^ 21)), 3, 0, x.2.2, 0⟩)

def step (E : Env σ) (v : ℕ) (j : Job) : ℕ → Page → Machine σ → Option Page × Machine σ :=
  cond j.wired (wirePage E v) (allocPage E v)

/-- The allocation in the free interval `f` of the block `b`. -/
def run (E : Env σ) (v b f : ℕ) (j : Job) (M : Machine σ) : Except Stop (Bool × Machine σ) :=
  allocRange E v b f j.start (mul64 j.nr 4096) (j.step E v) j.plan j.any j.any M

/-- The frames are given, and what else the range needs is granted. -/
def granted (E : Env σ) (v : ℕ) (M : Machine σ) (j : Job) : Bool :=
  j.wired && grants E v (M.mem (v + 48)) (M.mem (v + 40)) j.plan 4 M.env

theorem makesPage (hE : Lawful E v live) (j : Job) : MakesPage v live (j.step E v) := by
  rw [step]
  cases j.wired
  · exact allocPage_spec hE v
  · exact wirePage_spec hE v

/-- A range that is granted and fails, or a part left over of it, starts at address 0. -/
theorem done_of_granted {b f : ℕ} {j : Job} {ok : Bool} {t : Forest} (hE : Lawful E v live) (B : Block live M b t)
    (hf : f ∈ t.a.inorder) (hrest : ∀ r ∈ rest (span M.mem f) j.range, 64 ∣ r.1 ∧ r.1 ≠ 0)
    (hstart : 64 ∣ j.start ∧ j.start ≠ 0) (hg : j.granted E v M = true) (h : j.run E v b f M = .ok (ok, M')) :
    ok = true := by
  obtain ⟨hw, hg⟩ := (Bool.and_eq_true ..).mp hg
  have hstep : j.step E v = wirePage E v := by rw [step, hw, cond_true]
  rw [run, hstep] at h
  exact allocRange_granted hE B hf hrest hstart hg h

end Job

theorem dvd_mul64 (nr : ℕ) : 4096 ∣ mul64 nr 4096 := by
  rw [mul64]
  omega

/-- The checks of `virt_memory_alloc_pages_addr`, with the free interval that it finds. -/
def AddrChecks {τ : Type} (v virtual nr : ℕ) (M : Machine τ) (b f : ℕ) : Prop :=
  4096 ∣ virtual ∧ findFree v virtual M.mem = .ok (some (b, f)) ∧
    add64 virtual (mul64 nr 4096) ≤ add64 (M.mem f) (M.mem (f + 8))

theorem virtMemoryAllocPagesAddr_cases {virtual nr zone domain r : ℕ}
    (h : virtMemoryAllocPagesAddr E v virtual nr zone domain M = .ok (r, M')) :
    r = 0 ∧ M' = M ∧ (∀ b f, ¬AddrChecks v virtual nr M b f) ∨
    ∃ b f ok, AddrChecks v virtual nr M b f ∧ (Job.addr virtual nr zone domain).run E v b f M = .ok (ok, M') ∧
      r = if ok then virtual else 0 := by
  rw [virtMemoryAllocPagesAddr] at h
  split at h
  · next hv =>
    cases h
    exact .inl ⟨rfl, rfl, fun b f hc => hv (Nat.mod_eq_zero_of_dvd hc.1)⟩
  next hv =>
  obtain ⟨found, hfind, h⟩ := returned h
  cases found with
  | none =>
    cases h
    refine .inl ⟨rfl, rfl, fun b f hc => ?_⟩
    cases hfind.symm.trans hc.2.1
  | some bf =>
    obtain ⟨b, f⟩ := bf
    dsimp only at h
    split at h
    · next hend =>
      cases h
      refine .inl ⟨rfl, rfl, fun b' f' hc => ?_⟩
      obtain ⟨rfl, rfl⟩ := Prod.mk.inj (Option.some.inj (Except.ok.inj (hfind.symm.trans hc.2.1)))
      exact absurd hc.2.2 (not_le.mpr hend)
    next hend =>
    obtain ⟨⟨ok, M1⟩, hrange, h⟩ := returned h
    cases h
    exact .inr ⟨b, f, ok, ⟨Nat.dvd_of_mod_eq_zero (not_not.mp hv), hfind, not_lt.mp hend⟩, hrange, rfl⟩

theorem virtMemoryWire_cases {virtual nr physical : ℕ} {ret : ℤ}
    (h : virtMemoryWire E v virtual nr physical M = .ok (ret, M')) :
    ret = -1 ∧ M' = M ∨ 4096 ∣ virtual ∧ ∃ b f ok, findFree v virtual M.mem = .ok (some (b, f)) ∧
      (Job.wire virtual nr physical).run E v b f M = .ok (ok, M') ∧ ret = if ok then 0 else -1 := by
  have hfail : ∀ {M1 : Machine σ}, (pure (-1, M1) : Except Stop (ℤ × Machine σ)) = .ok (ret, M') →
      ret = -1 ∧ M' = M1 := fun heq =>
    ⟨(Prod.mk.inj (Except.ok.inj heq)).1.symm, (Prod.mk.inj (Except.ok.inj heq)).2.symm⟩
  rw [virtMemoryWire] at h
  split at h
  · exact .inl (hfail h)
  obtain ⟨found, hfind, h⟩ := returned h
  cases found with
  | none => exact .inl (hfail h)
  | some bf =>
    dsimp only at h
    split at h
    · exact .inl (hfail h)
    obtain ⟨⟨ok, M1⟩, hrange, h⟩ := returned h
    cases h
    exact .inr ⟨by omega, bf.1, bf.2, ok, hfind, hrange, rfl⟩

/-- A call on one block: it has no interval that is large enough, or `job` is done in the one that was
    found. -/
def InBlock (E : Env σ) (v b nr : ℕ) (job : ℕ → Job) (p : ℕ) (M M' : Machine σ) : Prop :=
  p = 0 ∧ M' = M ∨
  ∃ f ok, searchFitSize b (searchSize nr) M.mem = .ok (some f) ∧
    (job (alignStart nr (M.mem f))).run E v b f M = .ok (ok, M') ∧ p = if ok then alignStart nr (M.mem f) else 0

theorem allocPagesBlock_cases {b nr zone domain p : ℕ} (h : allocPagesBlock E v b nr zone domain M = .ok (p, M')) :
    InBlock E v b nr (fun start => .pages start nr zone domain) p M M' := by
  rw [allocPagesBlock] at h
  obtain ⟨found, hfind, h⟩ := returned h
  cases found with
  | none =>
    cases h
    exact .inl ⟨rfl, rfl⟩
  | some f =>
    obtain ⟨⟨ok, M1⟩, hrange, h⟩ := returned h
    cases h
    exact .inr ⟨f, ok, hfind, hrange, rfl⟩

theorem allocVirtPagesWire_cases {b physical nr p : ℕ} (h : allocVirtPagesWire E v b physical nr M = .ok (p, M')) :
    InBlock E v b nr (fun start => .wire2 start nr physical) p M M' := by
  rw [allocVirtPagesWire] at h
  obtain ⟨found, hfind, h⟩ := returned h
  cases found with
  | none =>
    cases h
    exact .inl ⟨rfl, rfl⟩
  | some f =>
    obtain ⟨⟨ok, M1⟩, hrange, h⟩ := returned h
    cases h
    exact .inr ⟨f, ok, hfind, hrange, rfl⟩

variable {bs : List ℕ}

/-- The loop over the blocks ends at a block that gives a pointer; each block before it was tried. -/
theorem eachBlock_last {call : ℕ → Machine σ → Except Stop (ℕ × Machine σ)} {made : List Made} {objs : List ℕ}
    (Inv : St σ → (ℕ → Forest) → Prop) (Good : Made → Machine σ → Prop)
    (hcall : ∀ {d M T M'}, d ∈ made → Inv ⟨M, made, objs⟩ T → Good d M → call d.b M = .ok (0, M') → (∃ T', Inv ⟨M', made, objs⟩ T') ∧ (∀ d' ∈ made, M'.mem (d'.b + 16) = M.mem (d'.b + 16)) ∧ ∀ d' ∈ made, d'.b ≠ d.b → Good d' M → Good d' M')
    {k : ℕ} {b p : ℕ} (hbs : Linked.Chain (nextBlock M.mem) (ptr b) bs) (hmade : ∀ b ∈ bs, ∃ d ∈ made, d.b = b)
    (hgood : ∀ d ∈ made, d.b ∈ bs → Good d M) (hinv : Inv ⟨M, made, objs⟩ T)
    (h : eachBlock call k b M = .ok (p, M')) :
    p = 0 ∧ (∃ T', Inv ⟨M', made, objs⟩ T') ∨
    p ≠ 0 ∧ ∃ d M1 T1, d ∈ made ∧ Inv ⟨M1, made, objs⟩ T1 ∧ Good d M1 ∧ call d.b M1 = .ok (p, M') := by
  induction k generalizing bs b M T with
  | zero => cases h
  | succ k ih =>
    rw [eachBlock] at h
    split at h
    · cases h
      exact .inl ⟨rfl, T, hinv⟩
    next hb =>
    obtain ⟨rest, rfl, hrest⟩ : ∃ rest, bs = b :: rest ∧ Linked.Chain (nextBlock M.mem) (nextBlock M.mem b) rest := by
      rw [ptr, if_neg hb] at hbs
      exact hbs.pop
    obtain ⟨d, hd, rfl⟩ := hmade b List.mem_cons_self
    have hgood1 := hgood d hd List.mem_cons_self
    obtain ⟨⟨p1, M1⟩, hone, h1⟩ := returned h
    dsimp only at h1
    split at h1
    swap
    · next hp1 =>
      cases h1
      exact .inr ⟨hp1, d, M, T, hd, hinv, hgood1, hone⟩
    next hp1 =>
    subst hp1
    obtain ⟨⟨T1, hinv1⟩, hnext, hother⟩ := hcall hd hinv hgood1 hone
    have hnd := List.nodup_cons.mp hbs.nodup
    have hrest1 : Linked.Chain (nextBlock M1.mem) (ptr (M1.mem (d.b + 16))) rest := by
      rw [hnext d hd]
      refine hrest.congr fun b hb => ?_
      obtain ⟨d', hd', rfl⟩ := hmade b (List.mem_cons_of_mem _ hb)
      rw [nextBlock, nextBlock, hnext d' hd']
    refine ih hrest1 (fun b hb => hmade b (List.mem_cons_of_mem _ hb)) (fun d' hd' hmem => ?_) hinv1 h1
    have hne : d'.b ≠ d.b := fun heq => hnd.1 (heq ▸ hmem)
    exact hother d' hd' hne (hgood d' hd' (List.mem_cons_of_mem _ hmem))

/-- KEPT: what each call keeps. -/
theorem eachBlock_keeps {call : ℕ → Machine σ → Except Stop (ℕ × Machine σ)} {made : List Made} {objs : List ℕ}
    (Inv : St σ → (ℕ → Forest) → Prop) (Good : Made → Machine σ → Prop)
    (hcall : ∀ {d M T p M'}, d ∈ made → Inv ⟨M, made, objs⟩ T → Good d M → call d.b M = .ok (p, M') → (∃ T', Inv ⟨M', made, objs⟩ T') ∧ (∀ d' ∈ made, M'.mem (d'.b + 16) = M.mem (d'.b + 16)) ∧ (p = 0 → ∀ d' ∈ made, d'.b ≠ d.b → Good d' M → Good d' M'))
    {k : ℕ} {b p : ℕ} (hbs : Linked.Chain (nextBlock M.mem) (ptr b) bs) (hmade : ∀ b ∈ bs, ∃ d ∈ made, d.b = b)
    (hgood : ∀ d ∈ made, d.b ∈ bs → Good d M) (hinv : Inv ⟨M, made, objs⟩ T)
    (h : eachBlock call k b M = .ok (p, M')) : ∃ T', Inv ⟨M', made, objs⟩ T' := by
  have hnull : ∀ {d M T M'}, d ∈ made → Inv ⟨M, made, objs⟩ T → Good d M → call d.b M = .ok (0, M') →
      (∃ T', Inv ⟨M', made, objs⟩ T') ∧ (∀ d' ∈ made, M'.mem (d'.b + 16) = M.mem (d'.b + 16)) ∧
        ∀ d' ∈ made, d'.b ≠ d.b → Good d' M → Good d' M' := by
    intro d M T M' hd hinv hgood hone
    obtain ⟨hinv', hnext, hother⟩ := hcall hd hinv hgood hone
    exact ⟨hinv', hnext, hother rfl⟩
  rcases eachBlock_last Inv Good hnull hbs hmade hgood hinv h with ⟨-, hinv'⟩ | ⟨-, d, M1, T1, hd, hinv1, hgood1, hone⟩
  · exact hinv'
  · exact (hcall hd hinv1 hgood1 hone).1

/-! ### Entries on an object -/

/-- The checks of `virt_memory_alloc_entry`, with the free interval that it finds. -/
def EntryChecks {τ : Type} (v o addr size offset : ℕ) (M : Machine τ) (b f : ℕ) : Prop :=
  (4096 ∣ addr ∧ 4096 ∣ size ∧ 4096 ∣ offset) ∧ findFree v addr M.mem = .ok (some (b, f)) ∧
    add64 addr size ≤ add64 (M.mem f) (M.mem (f + 8)) ∧ add64 offset size ≤ (M.obj o).size

theorem virtMemoryAllocEntry_cases {o addr size offset flags r : ℕ}
    (h : virtMemoryAllocEntry E v o addr size offset flags M = .ok (r, M')) :
    r = 0 ∧ M' = M ∧ (∀ b f, ¬EntryChecks v o addr size offset M b f) ∨
    ∃ b f, EntryChecks v o addr size offset M b f ∧ allocEntryIn E v b f o addr size offset flags M = .ok (r, M') := by
  rw [virtMemoryAllocEntry] at h
  split at h
  · next halign =>
    cases h
    refine .inl ⟨rfl, rfl, fun b f hc => ?_⟩
    have := hc.1
    omega
  next halign =>
  obtain ⟨found, hfind, h⟩ := returned h
  cases found with
  | none =>
    cases h
    refine .inl ⟨rfl, rfl, fun b f hc => ?_⟩
    cases hfind.symm.trans hc.2.1
  | some bf =>
    obtain ⟨b, f⟩ := bf
    dsimp only at h
    split at h
    · next hend =>
      cases h
      refine .inl ⟨rfl, rfl, fun b' f' hc => ?_⟩
      obtain ⟨rfl, rfl⟩ := Prod.mk.inj (Option.some.inj (Except.ok.inj (hfind.symm.trans hc.2.1)))
      exact absurd hc.2.2.1 (not_le.mpr hend)
    next hend =>
    split at h
    · next hsize =>
      cases h
      exact .inl ⟨rfl, rfl, fun b' f' hc => absurd hc.2.2.2 (not_le.mpr hsize)⟩
    · next hsize =>
      exact .inr ⟨b, f, ⟨⟨by omega, by omega, by omega⟩, hfind, not_lt.mp hend, not_lt.mp hsize⟩, h⟩

/-! ### New objects and blocks -/

theorem virtMemoryAllocObject_takes (hE : Lawful E v live) {size o : ℕ}
    (h : virtMemoryAllocObject E v size M = (o, M')) (ho : o ≠ 0) :
    Takes v live M [o] M' ∧ M'.obj o = ⟨[], size, 0⟩ := by
  rcases virtMemoryAllocObject_cases h with ⟨hnull, -⟩ | ⟨M1, halloc, rfl⟩
  · exact absurd hnull ho
  have htake : Takes v live M [o] M1 := allocNode_spec hE halloc
  refine ⟨htake.write (within_setObj o _) ?_ rfl, setObj_self ..⟩
  rintro q hq rfl
  exact absurd hq (htake.new q (List.mem_singleton_self _)).1

theorem virtMemoryAllocObject_null (hE : Lawful E v live) {size : ℕ}
    (h : virtMemoryAllocObject E v size M = (0, M')) : Grows v live M M' := by
  rcases virtMemoryAllocObject_cases h with ⟨-, halloc⟩ | ⟨M1, halloc, -⟩
  · exact (allocNode_spec hE halloc).within
  · exact absurd (hE.node ((allocNode_spec hE halloc).new 0 (by simp)).2).pos (by decide)

variable {m : Mem}

theorem linkAt_chain {n c : ℕ} (hbs : Linked.Chain (nextBlock m) (ptr (m c)) bs) (hn : n ≠ 0) (hcn : c ≠ n + 16)
    (hcb : ∀ b ∈ bs, c ≠ b + 16) (hnb : n ∉ bs) :
    Linked.Chain (nextBlock (linkAt m n c)) (ptr (linkAt m n c c)) (n :: bs) := by
  rw [linkAt]
  refine ⟨by rw [set_self, ptr, if_neg hn], ?_⟩
  rw [nextBlock, set_of_ne hcn.symm, set_self]
  refine hbs.congr fun b hb => ?_
  have hne : b + 16 ≠ n + 16 := fun heq => hnb (by rwa [← Nat.add_right_cancel heq])
  rw [nextBlock, nextBlock, set_of_ne (hcb b hb).symm, set_of_ne hne]

/-- The loop of `_block_insert` ends behind the blocks that do not start later, in front of one that
    starts behind the new block; with the new block there it is a list again. -/
theorem insertPoint_chain {n k c c' : ℕ} (h : insertPoint m n k c = .ok (some c'))
    (hbs : Linked.Chain (nextBlock m) (ptr (m c)) bs) (hn : n ≠ 0) (hcn : c ≠ n + 16)
    (hcb : ∀ b ∈ bs, c ≠ b + 16) (hnb : n ∉ bs) :
    (c' = c ∨ ∃ b ∈ bs, c' = b + 16) ∧ ∃ pre post, bs = pre ++ post ∧
      Linked.Chain (nextBlock (linkAt m n c')) (ptr (linkAt m n c' c)) (pre ++ n :: post) ∧
      (∀ b ∈ pre, m b ≤ m n) ∧ ∀ b, post.head? = some b → m n < m b ∧ m (n + 8) < m b := by
  induction k generalizing c bs with
  | zero => cases h
  | succ k ih =>
    rw [insertPoint] at h
    split at h
    · next hc0 =>
      obtain rfl := Option.some.inj (Except.ok.inj h)
      obtain rfl : bs = [] := Linked.Chain.eq_nil (by rwa [ptr, if_pos hc0] at hbs)
      exact ⟨.inl rfl, [], [], rfl, linkAt_chain hbs hn hcn hcb hnb, by simp, by simp⟩
    next hc0 =>
    obtain ⟨rest, rfl, hrest⟩ : ∃ rest, bs = m c :: rest ∧ Linked.Chain (nextBlock m) (nextBlock m (m c)) rest := by
      rw [ptr, if_neg hc0] at hbs
      exact hbs.pop
    split at h
    · next hlater =>
      split at h
      · cases Except.ok.inj h
      · next hfin =>
        obtain rfl := Option.some.inj (Except.ok.inj h)
        refine ⟨.inl rfl, [], _, rfl, linkAt_chain hbs hn hcn hcb hnb, by simp, fun b hb => ?_⟩
        cases hb
        exact ⟨hlater, lt_of_not_ge hfin⟩
    next hlater =>
    -- the block that `c` points to stays in front
    have hnd := List.nodup_cons.mp hbs.nodup
    have hmem : ∀ b ∈ rest, b ∈ m c :: rest := fun b hb => List.mem_cons_of_mem _ hb
    have hcells : ∀ b ∈ rest, m c + 16 ≠ b + 16 := fun b hb heq => hnd.1 (by rwa [Nat.add_right_cancel heq])
    have hcn' : m c + 16 ≠ n + 16 := fun heq => hnb (Nat.add_right_cancel heq ▸ List.mem_cons_self ..)
    obtain ⟨hc', pre, post, rfl, hbs', hpre, hpost⟩ := ih h hrest hcn' hcells fun hmem' => hnb (hmem n hmem')
    have hcc' : c ≠ c' := by
      rcases hc' with rfl | ⟨b, hb, rfl⟩
      · exact hcb _ List.mem_cons_self
      · exact hcb b (hmem b hb)
    refine ⟨.inr ?_, m c :: pre, post, rfl, ⟨?_, hbs'⟩, fun b hb => ?_, hpost⟩
    · rcases hc' with rfl | ⟨b, hb, rfl⟩
      · exact ⟨m c, List.mem_cons_self, rfl⟩
      · exact ⟨b, hmem b hb, rfl⟩
    · rw [linkAt, set_of_ne hcc', set_of_ne hcn, ptr, if_neg hc0]
    · rcases List.mem_cons.mp hb with rfl | hb
      · exact not_lt.mp hlater
      · exact hpre b hb

theorem setBlock_of_out {n fr start fin a : ℕ} (hn : a < n ∨ n + 64 ≤ a) (hfr : a < fr ∨ fr + 64 ≤ a) :
    setBlock m n fr start fin a = m a := by
  simp only [setBlock, interval]
  simp (disch := omega) only [set_of_ne]

variable {n fr : ℕ}

/-- The fields of a new block are set, and the page table is prepared. -/
theorem setBlock_takes (hE : Lawful E v live) (htake : Takes v live M [fr, n] M') (start fin : ℕ) {s : σ}
    (hs : live s = live M'.env) : Takes v live M [fr, n] ⟨setBlock M'.mem n fr start fin, M'.obj, s⟩ := by
  obtain ⟨hfr, hfr'⟩ := htake.new fr (by simp)
  obtain ⟨hn, hn'⟩ := htake.new n (by simp)
  have hw : Within v live (fun p => p = n ∨ p = fr) M' { M' with mem := setBlock M'.mem n fr start fin } := by
    refine within_mem (fun p hp hW i hi => ?_) fun i hi => ?_
    · rw [not_or] at hW
      have h1 := (hE.node hp).apart (hE.node hn') hW.1
      have h2 := (hE.node hp).apart (hE.node hfr') hW.2
      exact setBlock_of_out (by rcases h1 with h | h <;> omega) (by rcases h2 with h | h <;> omega)
    · have h1 := (hE.node hn').space
      have h2 := (hE.node hfr').space
      exact setBlock_of_out (by omega) (by omega)
  refine (htake.write (hw.grows (grows_env hs)) ?_ hs)
  rintro p hp (rfl | rfl)
  · exact hn hp
  · exact hfr hp

/-- A failed `virt_memory_block_add` touches nothing that was in use. -/
theorem virtMemoryBlockAdd_null (hE : Lawful E v live) {start fin : ℕ}
    (h : virtMemoryBlockAdd E v start fin M = .ok (0, M')) : Grows v live M M' := by
  rcases virtMemoryBlockAdd_cases h with ⟨-, h1⟩ | ⟨n, M1, h1, ⟨-, M2, h2, rfl⟩ | ⟨fr, M2, ret, s, h2, hprep, hcases⟩⟩
  · exact (allocNode_spec hE h1).within
  · exact (Holding.free (takes_trans (allocNode_spec hE h1) (allocNode_spec hE h2)) hE v).within
  have htake : Takes v live M [fr, n] M2 := takes_trans (allocNode_spec hE h1) (allocNode_spec hE h2)
  have hlive := hE.prepare M2.env (setBlock M2.mem n fr start fin (v + 48)) start (add64 (sub64 fin start) 1)
  rw [hprep] at hlive
  rcases hcases with ⟨-, rfl⟩ | ⟨rfl, -⟩
  · exact (Holding.free (Holding.free (setBlock_takes hE htake start fin hlive) hE v) hE v).within
  · exact absurd (hE.node (htake.new 0 (by simp)).2).pos (by decide)

variable {start fin n : ℕ}

theorem virtMemoryBlockAdd_ok (h : virtMemoryBlockAdd E v start fin M = .ok (n, M')) (hn : n ≠ 0) :
    ∃ M1 fr M2 ret s c, allocNode E v M = (some n, M1) ∧ allocNode E v M1 = (some fr, M2) ∧
      E.prepare M2.env (setBlock M2.mem n fr start fin (v + 48)) start (add64 (sub64 fin start) 1) = (ret, s) ∧
      insertPoint (setBlock M2.mem n fr start fin) n fuel (v + 8) = .ok (some c) ∧
      M' = ⟨linkAt (setBlock M2.mem n fr start fin) n c, M2.obj, s⟩ := by
  rcases virtMemoryBlockAdd_cases h with ⟨rfl, -⟩ | ⟨b, M1, h1, ⟨rfl, -⟩ | ⟨fr, M2, ret, s, h2, hprep, hcases⟩⟩
  · exact absurd rfl hn
  · exact absurd rfl hn
  rcases hcases with ⟨rfl, -⟩ | ⟨rfl, c, hpoint, rfl⟩
  · exact absurd rfl hn
  · exact ⟨M1, fr, M2, ret, s, c, h1, h2, hprep, hpoint, rfl⟩

theorem setBlock_trees {m m' : Mem} {n fr start fin : ℕ} (hfr : 0 < fr ∧ fr < 2 ^ 64) (hap : Apart 64 fr n)
    (hblock : ∀ i < 64, i ≠ 16 → m' (n + i) = setBlock m n fr start fin (n + i))
    (hfree : ∀ i < 64, m' (fr + i) = setBlock m n fr start fin (fr + i)) :
    Trees n m' (.node .nil fr .nil) (.node .nil fr .nil) .nil ∧ span m' fr = firstFree start fin := by
  have hap' : fr + 64 ≤ n ∨ n + 64 ≤ fr := hap
  have hb : m' (n + 24) = 0 ∧ m' (n + 32) = fr + 16 ∧ m' (n + 40) = fr + 40 := by
    rw [hblock 24 (by decide) (by decide), hblock 32 (by decide) (by decide), hblock 40 (by decide) (by decide)]
    simp only [setBlock, interval]
    refine ⟨?_, ?_, ?_⟩ <;> simp (disch := omega) only [set_of_ne, set_self]
  have hf : (m' (fr + 16) = 0 ∧ m' (fr + 24) = 0 ∧ m' (fr + 32) = fr) ∧
      m' (fr + 40) = 0 ∧ m' (fr + 48) = 0 ∧ m' (fr + 56) = fr := by
    rw [hfree 16 (by decide), hfree 24 (by decide), hfree 32 (by decide), hfree 40 (by decide),
      hfree 48 (by decide), hfree 56 (by decide)]
    simp only [setBlock, interval]
    refine ⟨⟨?_, ?_, ?_⟩, ?_, ?_, ?_⟩ <;> simp (disch := omega) only [set_of_ne, set_self]
  obtain ⟨⟨h16, h24, h32⟩, h40, h48, h56⟩ := hf
  refine ⟨⟨?_, ?_, hb.1, .refl _, ?_, ?_, ?_, ?_, ?_, ?_⟩, ?_⟩
  · exact ⟨hb.2.1, by omega, h16, h24⟩
  · exact ⟨hb.2.2, by omega, h40, h48⟩
  · simpa [Data] using h32
  · simpa [Data] using h56
  · simp [Data]
  · simp
  · simpa using hap
  · simpa using hfr
  · have h0 := hfree 0 (by decide)
    have h8 := hfree 8 (by decide)
    rw [span, h8]
    rw [Nat.add_zero] at h0
    rw [h0]
    simp only [setBlock, interval]
    simp (disch := omega) only [set_of_ne, set_self]

/-- A new block at `n`, from `start` to `fin`, with the free interval `fr`, is in the list of the blocks
    `bs`, behind those that do not start later. -/
structure Inserted (v : ℕ) (live : σ → Set ℕ) (M : Machine σ) (bs : List ℕ) (n fr start fin : ℕ)
    (M' : Machine σ) : Prop where
  new : n ∉ live M.env ∧ n ∈ live M'.env
  newFree : fr ∉ live M.env ∧ fr ∈ live M'.env
  trees : Trees n M'.mem (.node .nil fr .nil) (.node .nil fr .nil) .nil
  span_eq : span M'.mem fr = firstFree start fin
  range : M'.mem n = start ∧ M'.mem (n + 8) = fin
  chain : ∃ pre post, bs = pre ++ post ∧
    Linked.Chain (nextBlock M'.mem) (ptr (M'.mem (v + 8))) (pre ++ n :: post) ∧
    (∀ b ∈ pre, M.mem b ≤ start) ∧ ∀ b, post.head? = some b → start < M.mem b ∧ fin < M.mem b
  inUse : ∀ p ∈ live M.env, p ∈ live M'.env ∧ M'.obj p = M.obj p
  nodes : ∀ p ∈ live M.env, p ∉ bs → ∀ i < 64, M'.mem (p + i) = M.mem (p + i)
  blocks : ∀ b ∈ bs, ∀ i < 64, i ≠ 16 → M'.mem (b + i) = M.mem (b + i)

theorem setBlock_range {n fr start fin : ℕ} (hap : Apart 64 fr n) :
    setBlock m n fr start fin n = start ∧ setBlock m n fr start fin (n + 8) = fin := by
  have hap' : fr + 64 ≤ n ∨ n + 64 ≤ fr := hap
  simp only [setBlock, interval]
  constructor <;> simp (disch := omega) only [set_of_ne, set_self]

/-- With the fields of the new block set, the nodes in use before and the space are as they were. -/
theorem setBlock_old (hE : Lawful E v live) (htake : Takes v live M [fr, n] M') (start fin : ℕ) :
    (∀ p ∈ live M.env, ∀ i < 64, setBlock M'.mem n fr start fin (p + i) = M.mem (p + i)) ∧
      ∀ i < 56, setBlock M'.mem n fr start fin (v + i) = M.mem (v + i) := by
  have hset := (setBlock_takes hE htake start fin rfl).within
  exact ⟨fun p hp => hset.mem p hp id, hset.space⟩

theorem setBlock_chain (hE : Lawful E v live) (htake : Takes v live M [fr, n] M') (start fin : ℕ)
    (hbs : Linked.Chain (nextBlock M.mem) (ptr (M.mem (v + 8))) bs) (hin : ∀ b ∈ bs, b ∈ live M.env) :
    Linked.Chain (nextBlock (setBlock M'.mem n fr start fin))
      (ptr (setBlock M'.mem n fr start fin (v + 8))) bs := by
  obtain ⟨hold, hspace⟩ := setBlock_old hE htake start fin
  rw [hspace 8 (by decide)]
  refine hbs.congr fun b hb => ?_
  rw [nextBlock, nextBlock, hold b (hin b hb) 16 (by decide)]

/-- INSERTED: a successful `virt_memory_block_add` links a new block into the list. -/
theorem virtMemoryBlockAdd_inserted (hE : Lawful E v live)
    (hbs : Linked.Chain (nextBlock M.mem) (ptr (M.mem (v + 8))) bs) (hin : ∀ b ∈ bs, b ∈ live M.env)
    (h : virtMemoryBlockAdd E v start fin M = .ok (n, M')) (hn : n ≠ 0) :
    ∃ fr, Inserted v live M bs n fr start fin M' := by
  obtain ⟨M1, fr, M2, ret, s, c, halloc, halloc', hprep, hpoint, rfl⟩ := virtMemoryBlockAdd_ok h hn
  have htake : Takes v live M [fr, n] M2 := takes_trans (allocNode_spec hE halloc) (allocNode_spec hE halloc')
  have hlive : live s = live M2.env := by
    have := hE.prepare M2.env (setBlock M2.mem n fr start fin (v + 48)) start (add64 (sub64 fin start) 1)
    rwa [hprep] at this
  obtain ⟨hfr, hfr2⟩ := htake.new fr (by simp)
  obtain ⟨hnew, hn2⟩ := htake.new n (by simp)
  have hnn := hE.node hn2
  have hnf := hE.node hfr2
  have hne : fr ≠ n := by
    have := htake.nodup
    simpa using this
  obtain ⟨hold, hspace⟩ := setBlock_old hE htake start fin
  have hbs' := setBlock_chain hE htake start fin hbs hin
  have hvb : ∀ b ∈ bs, v + 8 ≠ b + 16 := fun b hb => by
    have := (hE.node (hin b hb)).space
    omega
  obtain ⟨hc, pre, post, hsplit, hchain, hpre, hpost⟩ := insertPoint_chain hpoint hbs' hn
    (by rcases hnn.space with h | h <;> omega) hvb fun hmem => hnew (hin n hmem)
  -- the two pointers that are written are outside the nodes, but for the `next` fields
  have hcell : ∀ p ∈ live M2.env, ∀ i < 64, p ≠ n → (p + i = c → ∃ b ∈ bs, p = b ∧ i = 16) ∧ p + i ≠ n + 16 := by
    intro p hp i hi hpn
    have hp' := hE.node hp
    have h1 := hp'.apart hnn hpn
    refine ⟨fun heq => ?_, by rcases h1 with h | h <;> omega⟩
    rcases hc with rfl | ⟨b, hb, rfl⟩
    · have := hp'.space
      omega
    · refine ⟨b, hb, ?_⟩
      by_contra hnot
      have hpb : p ≠ b := fun h => hnot ⟨h, by omega⟩
      have := hp'.apart (hE.node (htake.within.inUse b (hin b hb) id)) hpb
      rcases this with h | h <;> omega
  have hcn : ∀ i < 64, n + i ≠ c := by
    intro i hi
    rcases hc with rfl | ⟨b, hb, rfl⟩
    · have := hnn.space
      omega
    · have := (hE.node (htake.within.inUse b (hin b hb) id)).apart hnn fun heq => hnew (heq ▸ hin b hb)
      rcases this with h | h <;> omega
  have hword : ∀ p ∈ live M2.env, ∀ i < 64, p ≠ n → (p ∈ bs → i ≠ 16) →
      linkAt (setBlock M2.mem n fr start fin) n c (p + i) = setBlock M2.mem n fr start fin (p + i) := by
    intro p hp i hi hpn hnot
    obtain ⟨h1, h2⟩ := hcell p hp i hi hpn
    rw [linkAt, set_of_ne, set_of_ne h2]
    rintro heq
    obtain ⟨b, hb, rfl, hi16⟩ := h1 heq
    exact hnot hb hi16
  have hfrbs : fr ∉ bs := fun hmem => hfr (hin fr hmem)
  have hblock : ∀ i < 64, i ≠ 16 →
      linkAt (setBlock M2.mem n fr start fin) n c (n + i) = setBlock M2.mem n fr start fin (n + i) := by
    intro i hi h16
    rw [linkAt, set_of_ne (hcn i hi), set_of_ne (by omega)]
  obtain ⟨htrees, hspan⟩ := setBlock_trees ⟨hnf.pos, hnf.below⟩ (hnf.apart hnn hne) hblock
    fun i hi => hword fr hfr2 i hi hne fun hmem => absurd hmem hfrbs
  have hnp : ∀ p ∈ live M.env, p ≠ n := fun p hp heq => hnew (heq ▸ hp)
  obtain ⟨hstart, hfin⟩ : setBlock M2.mem n fr start fin n = start ∧ setBlock M2.mem n fr start fin (n + 8) = fin :=
    setBlock_range (hnf.apart hnn hne)
  have hstarts : ∀ b ∈ pre ++ post, setBlock M2.mem n fr start fin b = M.mem b := fun b hb =>
    hold b (hin b (hsplit ▸ hb)) 0 (by decide)
  refine ⟨fr, ⟨hnew, hlive ▸ hn2⟩, ⟨hfr, hlive ▸ hfr2⟩, htrees, hspan, ?_, ⟨pre, post, hsplit, hchain, ?_, ?_⟩,
    fun p hp => ?_, fun p hp hnot i hi => ?_, fun b hb i hi h16 => ?_⟩
  · exact ⟨(hblock 0 (by decide) (by decide)).trans hstart, (hblock 8 (by decide) (by decide)).trans hfin⟩
  · intro b hb
    have := hpre b hb
    rwa [hstart, hstarts b (List.mem_append_left _ hb)] at this
  · intro b hb
    have := hpost b hb
    rwa [hstart, hfin, hstarts b (List.mem_append_right _ (List.mem_of_head? hb))] at this
  · exact ⟨hlive ▸ htake.within.inUse p hp id, htake.within.obj p hp id⟩
  · rw [← hold p hp i hi]
    exact hword p (htake.within.inUse p hp id) i hi (hnp p hp) fun hmem => absurd hmem hnot
  · rw [← hold b (hin b hb) i hi]
    exact hword b (htake.within.inUse b (hin b hb) id) i hi (hnp b (hin b hb)) fun _ => h16

/-- ADDED: the same for a space that is intact. -/
theorem virtMemoryBlockAdd_added (hE : Lawful E v live) (I : Intact v live st T)
    (h : virtMemoryBlockAdd E v start fin st.mach = .ok (n, M')) (hn : n ≠ 0) :
    ∃ fr, Added v live st n fr (firstFree start fin) M' := by
  obtain ⟨bs, hbs, hmade⟩ := I.chain
  have hin : ∀ b ∈ bs, b ∈ live st.mach.env := fun b hb => by
    obtain ⟨d, hd, rfl⟩ := hmade b hb
    exact (I.block hd).home.block
  obtain ⟨fr, hins⟩ := virtMemoryBlockAdd_inserted hE hbs hin h hn
  obtain ⟨pre, post, rfl, hchain, -⟩ := hins.chain
  refine ⟨fr, hins.new, hins.newFree, hins.trees, hins.span_eq, ⟨_, hchain, fun b hb => ?_⟩, hins.inUse,
    fun p hp hnot => hins.nodes p hp fun hmem => ?_, fun d hd i hi h16 => ?_⟩
  · rcases List.mem_append.mp hb with hb | hb
    · exact .inr (hmade b (List.mem_append_left _ hb))
    · exact (List.mem_cons.mp hb).imp id fun hb => hmade b (List.mem_append_right _ hb)
  · obtain ⟨d, hd, heq⟩ := hmade p hmem
    exact hnot d hd heq.symm
  · by_cases hmem : d.b ∈ pre ++ post
    · exact hins.blocks d.b hmem i hi h16
    · exact hins.nodes d.b (I.block hd).home.block hmem i hi

end Advos.Space
