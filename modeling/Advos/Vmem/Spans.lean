import Advos.Vmem.Steps

/-! The free intervals and the entries of a block tile what was free when the block was made.

    An allocation at an end of a free interval splits it, and freeing an entry joins it to a
    neighbour or leaves it as an interval, so the count of every address stays one. -/

namespace Advos.Space
open Vmem SearchTree Word Arc Tiling Relation List

variable {σ : Type} {E : Env σ} {v : ℕ} {live : σ → Set ℕ} {st st' : St σ} {T T' : ℕ → Forest} {m m' : Mem}

/-- The structures of the block `d`, with the trees `t`, are whole pages and tile the interval that was
    free at first. -/
structure Tiled (m : Mem) (d : Made) (t : Forest) : Prop where
  whole : Whole m t
  tiles : Tiles arc (t.nodes.map (span m)) fun x => arc (firstFree d.start d.fin) x = true

/-! ### Each change keeps the tiling -/

section Keep
variable {d : Made} {t t' : Forest}

theorem Tiled.kept (h : Tiled m d t) (hk : Kept 16 t.nodes m m') : Tiled m' d t := by
  refine ⟨h.whole.kept hk, ?_⟩
  rw [hk.map_span (by decide)]
  exact h.tiles

theorem Tiled.of_cover (h : Tiled m d t) (hwhole : Whole m' t')
    (hcover : ∀ x, cover arc (t'.nodes.map (span m')) x = cover arc (t.nodes.map (span m)) x) : Tiled m' d t' := by
  refine ⟨hwhole, fun x => ?_⟩
  rw [hcover x]
  exact h.tiles x

theorem cover_frees {f : ℕ} (hf : f ∈ t.a.inorder) (x : ℕ) : cover arc (t.nodes.map (span m)) x =
    cover arc ((t.a.inorder.erase f).map (span m)) x + (if arc (span m f) x then 1 else 0) +
      cover arc (t.e.inorder.map (span m)) x := by
  rw [Forest.nodes, map_append, cover_append, cover_perm arc x ((perm_cons_erase hf).map (span m)),
    map_cons, cover_cons]

variable {b f e : ℕ} {x : Entry} {O : ℕ → Prop} {M M' : Machine σ}

/-- SPLIT: a range at an end of a free interval. -/
theorem Tiled.carve (h : Tiled M.mem d t) (hc : Carved v live b f t t' e x M M') (hf : f ∈ t.a.inorder)
    (hedge : AtEdge (span M.mem f) (x.start, x.size)) (hx : IsSpan (x.start, x.size) ∧ Paged (x.start, x.size)) :
    Tiled M'.mem d t' := by
  obtain ⟨used, hpa, hspans, -⟩ := hc.frees
  refine h.of_cover (Whole.carve h.whole hc hf hx) fun y => ?_
  have hrest := cover_rest (h.whole f (mem_append_left _ hf)).1 hx.1 hedge y
  rw [cover_cons] at hrest
  rw [cover_frees hf, Forest.nodes, map_append, cover_append, cover_perm arc y (hpa.map _),
    cover_perm arc y (hc.entries.map _), map_append, cover_append, map_cons, cover_cons, hspans,
    span_eq_of_entryAt hc.entry, hc.keptA.map_span (by decide), (hc.keptE.mono (by decide : 16 ≤ 40)).map_span (by decide)]
  omega

/-- JOIN: an interval and a range next to it that are counted once are one interval. -/
theorem arc_join {f e : ℕ × ℕ} {l : List (ℕ × ℕ)} {a : ℕ × ℕ} (hl : Tiles arc l fun x => arc a x = true)
    (ha : IsSpan a) (hf : IsSpan f) (he : IsSpan e) (hfl : f ∈ l) (hel : e ∈ l) (h : Neighbours f e) (x : ℕ) :
    (if arc (join f e) x then 1 else 0) = (if arc f x then 1 else 0) + (if arc e x then 1 else 0) := by
  obtain ⟨fs, fn⟩ := f
  obtain ⟨es, en⟩ := e
  obtain ⟨⟨hfs, hfn⟩, hes, hen⟩ := And.intro hf he
  dsimp only at hfs hfn hes hen
  rw [join]
  dsimp only
  split
  · next hstart =>
    have hlt : en + fn < 2 ^ 64 := add_lt_of_tiles hl ha.1 ha.2 hes hel (by rwa [← hstart])
    rw [add64_of_lt (by omega), Nat.add_comm fn en, arc_split hes hlt.le, ← hstart, Nat.add_comm]
  · next hstart =>
    have hend : es = add64 fs fn := h.resolve_left fun heq => hstart heq.symm
    have hlt : fn + en < 2 ^ 64 := add_lt_of_tiles hl ha.1 ha.2 hfs hfl (by rwa [← hend])
    rw [add64_of_lt hlt, arc_split hfs hlt.le, ← hend]

/-- JOIN: an entry is freed. -/
theorem Tiled.free (h : Tiled M.mem d t) (hc : Freed v live b t t' e O M M') : Tiled M'.mem d t' := by
  have heT : e ∈ t.nodes := mem_append_right _ (hc.entries.mem_iff.mpr mem_cons_self)
  have hcoverE : ∀ y, cover arc (t.e.inorder.map (span M.mem)) y =
      cover arc (t'.e.inorder.map (span M'.mem)) y + (if arc (span M.mem e) y then 1 else 0) := by
    intro y
    rw [cover_perm arc y (hc.entries.map _), map_cons, cover_cons,
      (hc.keptE.mono (by decide : 16 ≤ 40)).map_span (by decide)]
  refine h.of_cover (Whole.free h.whole hc) fun y => ?_
  rcases hc.frees with ⟨hpa, hse, hk⟩ | ⟨f, hf, hpa, hnb, hsf, hk⟩
  · rw [Forest.nodes, Forest.nodes, map_append, map_append, cover_append, cover_append, hcoverE y,
      cover_perm arc y (hpa.map _), map_cons, cover_cons, hse, hk.map_span (by decide)]
    omega
  · have hfT : f ∈ t.nodes := mem_append_left _ hf
    have hjoin := arc_join h.tiles (firstFree_paged d.start d.fin).1 (h.whole f hfT).1 (h.whole e heT).1
      (mem_map_of_mem hfT) (mem_map_of_mem heT) hnb y
    rw [cover_frees hf, hcoverE y, Forest.nodes, map_append, cover_append, cover_perm arc y (hpa.map _),
      map_cons, cover_cons, hsf, hjoin, hk.map_span (by decide)]
    omega

theorem Tiled.new {n fr start fin : ℕ} (h : span m fr = firstFree start fin) :
    Tiled m ⟨n, start, fin⟩ ⟨.node .nil fr .nil, .node .nil fr .nil, .nil⟩ := by
  refine ⟨Whole.new h, fun y => ?_⟩
  simp [Forest.nodes, h]

end Keep

/-- The structures of the space are intact, and every block is tiled. -/
structure Sound (v : ℕ) (live : σ → Set ℕ) (st : St σ) (T : ℕ → Forest) : Prop where
  intact : Intact v live st T
  tiled : ∀ d ∈ st.made, Tiled st.mach.mem d (T d.b)

theorem Sound.tidy (S : Sound v live st T) : Tidy v live st T := ⟨S.intact, fun d hd => (S.tiled d hd).whole⟩

/-- What is carved is at an end of the interval, in whole pages. -/
def Fitting : Kind → Machine σ → Machine σ → Prop
  | .carve _ f x, _, _ => AtEdge f (x.start, x.size) ∧ IsSpan (x.start, x.size) ∧ Paged (x.start, x.size)
  | _, _, _ => True

theorem Sound.change (S : Sound v live st T) (h : Change v live Fitting st T st' T') : Sound v live st' T' :=
  ⟨h.intact S.intact, h.blocks Tiled Tiled.kept (fun hf hc hR htd => htd.carve hc hf hR.1 hR.2)
    (fun _ hc _ htd => htd.free hc) Tiled.new S.intact S.tiled⟩

/-! ### Calls that fit -/

/-- The range at `addr` is at an end of the free interval that it is in. -/
def FitsAt (v : ℕ) (st : St σ) (addr size : ℕ) : Prop :=
  ∀ b f, findFree v addr st.mach.mem = .ok (some (b, f)) → AtEdge (span st.mach.mem f) (addr, size)

/-- In every block, `nr` pages are at an end of the free interval that is found for them, and what is
    left over does not start at address 0. -/
def FitsBlocks (st : St σ) (nr : ℕ) : Prop :=
  ∀ d ∈ st.made, ∀ f, searchFitSize d.b (searchSize nr) st.mach.mem = .ok (some f) →
    AtEdge (span st.mach.mem f) (alignStart nr (st.mach.mem f), mul64 nr 4096) ∧
      ∀ r ∈ rest (span st.mach.mem f) (alignStart nr (st.mach.mem f), mul64 nr 4096), r.1 ≠ 0

def Op.Fits (v : ℕ) (st : St σ) : Op → Prop
  | .blockAdd _ _ => True
  | .allocObject _ => True
  | .allocEntry _ addr size _ _ => FitsAt v st addr size
  | .allocPages nr _ _ => FitsBlocks st nr
  | .allocPagesAddr virtual nr _ _ => FitsAt v st virtual (mul64 nr 4096)
  | .wire virtual nr _ => FitsAt v st virtual (mul64 nr 4096)
  | .wire2 _ nr => FitsBlocks st nr
  | .freePages addr => ∀ b e, findStart v addr st.mach.mem = .ok (some (b, e)) → FreesAlone st.mach b e

/-- What a call that fits says of its ranges. -/
def Fitted (_ : Machine σ) (a : ℕ × ℕ) (j : Job) : Prop :=
  AtEdge a j.range ∧ (j.any = true → ∀ r ∈ rest a j.range, r.1 ≠ 0)

theorem Op.Fits.meets {op : Op} (h : op.Fits v st) :
    op.Meets v st Fitted (fun a x => AtEdge a (x.start, x.size)) FreesAlone := by
  cases op with
  | blockAdd => trivial
  | allocObject => trivial
  | allocEntry => exact h
  | allocPages => exact fun d hd f hf => ⟨(h d hd f hf).1, fun _ => (h d hd f hf).2⟩
  | allocPagesAddr => exact fun b f hf => ⟨h b f hf, fun hany => Bool.noConfusion hany⟩
  | wire => exact fun b f hf => ⟨h b f hf, fun hany => Bool.noConfusion hany⟩
  | wire2 => exact fun d hd f hf => ⟨(h d hd f hf).1, fun _ => (h d hd f hf).2⟩
  | freePages => exact h

theorem fitting_rules (E : Env σ) (v : ℕ) :
    Rules E v live Fitting false Fitted (fun a x => AtEdge a (x.start, x.size)) FreesAlone where
  blockAdd := by
    intro start fin n M M' _
    split <;> trivial
  allocObject := by
    intro size o M M' _
    split <;> trivial
  range _ _ hP hj _ _ := ⟨hP.1, hj⟩
  failed _ _ _ _ := trivial
  entry hQ hx _ _ := ⟨hQ, hx⟩
  entryFailed _ hfails := absurd hfails (by decide)
  freed _ _ := trivial
  rangeZero hP hany := hP.2 (hany.resolve_left (by decide))
  entryZero _ hfails := absurd hfails (by decide)
  alone := id
  stay _ _ _ _ _ hP := hP

/-- RUN: whatever is called, if all calls fit. -/
theorem sound_run {M : Machine σ} (hE : Lawful E v live) (hM : NewSpace v M)
    (h : ReflTransGen (Step E v fun st op => op.Fits v st) ⟨M, [], []⟩ st) : ∃ T, Sound v live st T := by
  refine Run.invariant (P := fun st => ∃ T, Sound v live st T) h ⟨_, (Tidy.init hM).intact, by simp⟩ ?_
  rintro st st' ⟨T, S⟩ ⟨op, hv, hfits, hrun⟩
  exact (fitting_rules E v).step hE Sound.tidy Sound.change S hv hfits.meets (.inl rfl) hrun

/-- In every run whose calls all fit, the free intervals and the entries of every block are whole pages,
    pairwise disjoint, and together the interval that was free when the block was made. -/
theorem blocks_tiled {M : Machine σ} (hE : Lawful E v live) (hM : NewSpace v M)
    (h : Relation.ReflTransGen (Step E v fun st op => op.Fits v st) ⟨M, [], []⟩ st) {d : Made} (hd : d ∈ st.made) :
    ∃ t : Forest, Trees d.b st.mach.mem t.a t.s t.e ∧ (∀ s ∈ t.nodes, Paged (span st.mach.mem s)) ∧
      (t.nodes.map (span st.mach.mem)).Pairwise (fun a a' => ∀ x, ¬(arc a x = true ∧ arc a' x = true)) ∧
      ∀ x, (∃ s ∈ t.nodes, arc (span st.mach.mem s) x = true) ↔ arc (firstFree d.start d.fin) x = true := by
  obtain ⟨T, S⟩ := sound_run hE hM h
  have htiled := S.tiled d hd
  refine ⟨T d.b, S.intact.trees d hd, fun s hs => (htiled.whole s hs).2, htiled.tiles.pairwise, fun x => ?_⟩
  rw [← htiled.tiles.mem_iff x]
  simp

/-! ### A simple environment -/

/-- Nodes and frames are handed out in ascending order. -/
structure Supply where
  nodes : List ℕ
  next : ℕ
  frames : ℕ
deriving DecidableEq, Repr

/-- An allocator that never reuses a node, and page tables where nothing fails. -/
def supply : Env Supply where
  alloc s _ :=
    let p := 0x10000 + 64 * s.next
    if p ∈ s.nodes ∨ 2 ^ 32 ≤ s.next then (none, s) else (some p, { s with nodes := p :: s.nodes, next := s.next + 1 })
  free s _ p := (none, { s with nodes := s.nodes.filter (· ≠ p) })
  physAlloc s _ _ _ := (some (0x200000 * (8 + s.frames)), { s with frames := s.frames + 1 })
  physFree s _ _ _ _ := s
  map s _ _ _ _ := (0, s)
  unmap s _ _ _ := (0, s)
  prepare s _ _ _ := (0, s)
  copy s _ _ _ _ := s

/-- The nodes in use. -/
def Supply.inUse (s : Supply) : Set ℕ := {p | p ∈ s.nodes ∧ NodeAt 0x1000 p}

theorem supply_lawful : Lawful supply 0x1000 Supply.inUse where
  alloc_none := by
    intro s u s' h
    simp only [supply] at h
    split at h
    · rw [(Prod.mk.inj h).2]
    · cases (Prod.mk.inj h).1
  alloc_some := by
    intro s u p s' h
    simp only [supply] at h
    split at h
    · cases (Prod.mk.inj h).1
    · next hnot =>
      obtain ⟨hp, rfl⟩ := Prod.mk.inj h
      cases hp
      rw [not_or] at hnot
      have hnode : NodeAt 0x1000 (0x10000 + 64 * s.next) := ⟨by omega, by omega, by omega, by omega⟩
      refine ⟨fun hmem => hnot.1 hmem.1, Set.ext fun q => ?_⟩
      simp only [Supply.inUse, Set.mem_ofPred_eq, mem_cons, Set.mem_insert_iff]
      constructor
      · rintro ⟨rfl | hq, hn⟩
        · exact .inl rfl
        · exact .inr ⟨hq, hn⟩
      · rintro (rfl | ⟨hq, hn⟩)
        · exact ⟨.inl rfl, hnode⟩
        · exact ⟨.inr hq, hn⟩
  free := by
    intro s u p
    ext q
    simp only [supply, Supply.inUse, Set.mem_ofPred_eq, mem_filter, Set.mem_sdiff, Set.mem_singleton_iff,
      decide_eq_true_eq]
    tauto
  physAlloc _ _ _ _ := rfl
  physFree _ _ _ _ _ := rfl
  map _ _ _ _ _ := rfl
  unmap _ _ _ _ := rfl
  prepare _ _ _ _ := rfl
  node h := h.2

/-- The machine before the first call. -/
def blank : Machine Supply := ⟨fun _ => 0, fun _ => ⟨[], 0, 0⟩, ⟨[], 0, 0⟩⟩

/-- The state after a call. -/
def after (E : Env σ) (st : St σ) (op : Op) : St σ :=
  match op.run E 0x1000 st with
  | .ok r => r.2
  | .error _ => st

theorem run_after {op : Op} {done : Bool} (h : (op.run E 0x1000 st).toOption.map Prod.fst = some done) :
    op.run E 0x1000 st = .ok (done, after E st op) := by
  obtain ⟨st', hrun⟩ := returned_fst h
  rw [after, hrun]

theorem step_after {ok : St σ → Op → Prop} {op : Op} (hv : op.Valid st) (hok : ok st op)
    (h : (op.run E 0x1000 st).toOption.map Prod.fst = some true) : Step E 0x1000 ok st (after E st op) :=
  ⟨op, hv, hok, run_after h⟩

/-- Each of the calls is valid and allowed by `ok`, and succeeds. -/
def Succeed (E : Env σ) (ok : St σ → Op → Prop) : St σ → List Op → Prop
  | _, [] => True
  | st, op :: ops =>
    op.Valid st ∧ ok st op ∧ (op.run E 0x1000 st).toOption.map Prod.fst = some true ∧ Succeed E ok (after E st op) ops

instance decidableSucceed (E : Env σ) (ok : St σ → Op → Prop) [∀ st op, Decidable (ok st op)] :
    ∀ (ops : List Op) (st : St σ), Decidable (Succeed E ok st ops)
  | [], _ => isTrue trivial
  | op :: ops, st =>
    have := decidableSucceed E ok ops (after E st op)
    inferInstanceAs (Decidable (_ ∧ _ ∧ _ ∧ _))

theorem Succeed.steps {ok : St σ → Op → Prop} {ops : List Op} (h : Succeed E ok st ops) :
    ReflTransGen (Step E 0x1000 ok) st (ops.foldl (after E) st) := by
  induction ops generalizing st with
  | nil => exact .refl
  | cons op ops ih =>
    obtain ⟨hv, hok, hdone, h⟩ := h
    exact .head (step_after hv hok hdone) (ih h)

instance (v : ℕ) (st : St σ) (addr size : ℕ) : Decidable (FitsAt v st addr size) := decidableFound ..

/-- A block, and three pages at its start. -/
theorem blocks_tiled_three_pages : ∃ st d, st.made = [d] ∧
    Relation.ReflTransGen (Step supply 0x1000 fun st op => op.Fits 0x1000 st) ⟨blank, [], []⟩ st ∧
    ∃ t : Forest, Trees d.b st.mach.mem t.a t.s t.e ∧ (∀ s ∈ t.nodes, Paged (span st.mach.mem s)) ∧
      (t.nodes.map (span st.mach.mem)).Pairwise (fun a a' => ∀ x, ¬(arc a x = true ∧ arc a' x = true)) ∧
      ∀ x, (∃ s ∈ t.nodes, arc (span st.mach.mem s) x = true) ↔ arc (firstFree d.start d.fin) x = true := by
  let ops : List Op := [.blockAdd 0x10000000 0x1fffffff, .allocPagesAddr 0x10000000 3 1 0]
  have hfits : FitsAt 0x1000 (after supply ⟨blank, [], []⟩ (.blockAdd 0x10000000 0x1fffffff)) 0x10000000 (mul64 3 4096) := by
    decide +kernel
  have hsucc : Succeed supply (fun st op => op.Fits 0x1000 st) ⟨blank, [], []⟩ ops :=
    ⟨by decide, trivial, by decide +kernel, by decide, hfits, by decide +kernel, trivial⟩
  have hmade : (ops.foldl (after supply) ⟨blank, [], []⟩).made = [⟨0x10000, 0x10000000, 0x1fffffff⟩] := by
    decide +kernel
  exact ⟨_, _, hmade, hsucc.steps,
    blocks_tiled (M := blank) supply_lawful rfl hsucc.steps (by rw [hmade]; exact List.mem_singleton_self _)⟩

/-- One page inside the block, away from both ends: its address is free and allocated. -/
theorem page_free_and_allocated : ∃ st f e,
    Relation.ReflTransGen (Step supply 0x1000 fun _ _ => True) ⟨blank, [], []⟩ st ∧
    st.made = [⟨0x10000, 0x10000000, 0x1fffffff⟩] ∧
    findFreeEntry 0x10000 0x10002000 st.mach.mem = .ok (some f) ∧ span st.mach.mem f = (0x10000000, 0x3000) ∧
    findEntry 0x10000 0x10002000 st.mach.mem = .ok (some e) ∧ span st.mach.mem e = (0x10002000, 0x1000) := by
  have hsucc : Succeed supply (fun _ _ => True) ⟨blank, [], []⟩
      [.blockAdd 0x10000000 0x1fffffff, .allocPagesAddr 0x10002000 1 1 0] := by decide +kernel
  refine ⟨_, 0x10100, 0x10080, hsucc.steps, ?_⟩
  decide +kernel

end Advos.Space
