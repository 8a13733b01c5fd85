import Advos.Pgt.Large

/-! Translation in software (`pgt_v2p`).

    A second walk of the tables, by the kernel. On the way from a PDPT to a PD and from a PD to a PT it
    follows the first entry of the table, not the one of the address:

        PML4[i39] ──▶ PDPT[i30] present?
                      PDPT[0]  ──▶ PD[i21] present, large?
                                   PD[0]  ──▶ PT[i12]

    So it agrees with the hardware as long as the tables stand at the first entries. -/

namespace Advos.Pgt
open Word Function List

variable {b : Buffer} {t t' : PageTable} {used used' : Used} {fr : List ℕ} {p : List ℕ} {a c i j w v : ℕ} {S S' : Shape}

/-- `MASK_SUPERPAGE`. -/
def maskSuperpage (a : ℕ) : ℕ := a &&& not64 0x1fffff

/-- `pgt_v2p`; 0 is NULL. -/
def pgtV2p (t : PageTable) (virtual : ℕ) : ℕ :=
  let e4 := t.mem (slot (pml4 t) (index virtual 39))
  if !present e4 then 0
  else
    let pdpt := p2v t (maskPage e4)
    let e3 := t.mem (slot pdpt (index virtual 30))
    if !present e3 then 0
    else if pageBit e3 then maskSuperpage e3
    else
      -- `pdpt->v` and `pd->v` are the first entries
      let pd := p2v t (maskPage (t.mem (slot pdpt 0)))
      let e2 := t.mem (slot pd (index virtual 21))
      if !present e2 then 0
      else if pageBit e2 then maskSuperpage e2
      else
        let pt := p2v t (maskPage (t.mem (slot pd 0)))
        let e1 := t.mem (slot pt (index virtual 12))
        if !present e1 then 0 else maskPage e1

/-- NULL exactly if the hardware faults, and else the base of the page that it selects. -/
def Agrees (t : PageTable) (v : ℕ) : Prop :=
  (pgtV2p t v = 0 ↔ walk t v = none) ∧ ∀ x, walk t v = some x → pgtV2p t v = x.frame

/-! ### One walk -/

/-- The tables below the PDPTs stand at the first entries. -/
def First (used : Used) : Prop := ∀ i p a, used (i :: p) = some a → p ≠ [] → i = 0

theorem maskSuperpage_flags {pa f : ℕ} (ha : pa % 2 ^ 21 = 0) (hf : f < 4096) (hpa : pa < 2 ^ 52) :
    maskSuperpage (pa + f) = pa := by
  change align (pa + f) 21 = pa
  rw [align_eq (by omega)]
  omega

theorem Written.small (hw : Written b ⟨t, used, fr⟩) (T : Tree b t used fr) (ha : used p = some a) (hp : p.length = 3)
    (hi : i < 512) (hpres : present (word b t a i) = true) : maskPage (word b t a i) = frameOf (word b t a i) 12 := by
  rcases hw.leaf ha hi (T.used_pt hp) with h0 | hleaf
  · dsimp only at h0
    rw [h0] at hpres
    cases hpres
  · rw [hp] at hleaf
    dsimp only at hleaf
    generalize word b t a i = w at hleaf
    cases hleaf with
    | small ha hpa global rw user =>
      rw [maskPage_flags ha (leafFlags_lt ..) hpa, frameOf_flags (by decide) (by decide) ha (leafFlags_lt ..) hpa]

theorem Written.large (hw : Written b ⟨t, used, fr⟩) (ha : used p = some a) (hp : p.length = 2) (hi : i < 512)
    (hu : used (i :: p) = none) (hpres : present (word b t a i) = true) :
    maskSuperpage (word b t a i) = frameOf (word b t a i) 21 := by
  rcases hw.leaf ha hi hu with h0 | hleaf
  · dsimp only at h0
    rw [h0] at hpres
    cases hpres
  · rw [hp] at hleaf
    dsimp only at hleaf
    generalize word b t a i = w at hleaf
    cases hleaf with
    | large ha hpa global rw user =>
      rw [maskSuperpage_flags ha (leafFlags_lt ..) hpa, frameOf_flags (by decide) (by decide) ha (leafFlags_lt ..) hpa]

theorem Tree.follow (T : Tree b t used fr) (ha : used (i :: p) = some a) : Pgt.p2v t (maskPage (b.tableEntry a)) = b.page a := by
  rw [Buffer.maskPage_tableEntry (T.lt ha), T.p2v_physPage (T.lt ha)]

/-- With the tables at the first entries, the software finds the leaf that the hardware finds. -/
theorem Tree.v2p_eq_view (T : Tree b t used fr) (hw : Written b ⟨t, used, fr⟩) (hfirst : First used) (v : ℕ) :
    pgtV2p t v = ((view b t used v).map Xlat.frame).getD 0 := by
  have hmem : ∀ a i, t.mem (slot (b.page a) i) = word b t a i := fun _ _ => rfl
  simp only [pgtV2p, T.pml4_eq, hmem]
  -- one case split for each level, as for the hardware
  cases T.slots T.root (index_lt v 39) with
  | empty h0 hu =>
    rw [h0, T.view_none (T.used_none hu)]
    rfl
  | leaf _ _ hp => rcases hp with hp | ⟨hp, -⟩ <;> cases hp
  | table c4 h4 hu4 _ =>
    rw [h4, T.follow hu4, Buffer.tableEntry_present]
    simp only [hmem, Bool.not_true, Bool.false_eq_true, if_false]
    cases T.slots hu4 (index_lt v 30) with
    | empty h0 hu =>
      rw [h0, T.view_none hu]
      rfl
    | leaf _ _ hp => rcases hp with hp | ⟨hp, -⟩ <;> cases hp
    | table c3 h3 hu3 _ =>
      have hi30 : index v 30 = 0 := hfirst _ _ _ hu3 (cons_ne_nil _ _)
      have h3' := h3
      rw [hi30] at h3'
      rw [h3, h3', T.follow hu3, Buffer.tableEntry_present, Buffer.tableEntry_page]
      simp only [hmem, Bool.not_true, Bool.false_eq_true, if_false]
      cases T.slots hu3 (index_lt v 21) with
      | empty h0 hu =>
        rw [view_pd hu hu3, h0]
        rfl
      | leaf hpres hu hp =>
        rcases hp with hp | ⟨-, hpage⟩
        · cases hp
        · rw [view_pd hu hu3, hpres, hpage, leafOf, if_pos hpres, hw.large hu3 rfl (index_lt v 21) hu hpres]
          rfl
      | table c2 h2 hu2 _ =>
        have hi21 : index v 21 = 0 := hfirst _ _ _ hu2 (cons_ne_nil _ _)
        have h2' := h2
        rw [hi21] at h2'
        rw [h2, h2', T.follow hu2, Buffer.tableEntry_present, Buffer.tableEntry_page, view_pt hu2, leafOf]
        simp only [hmem, Bool.not_true, Bool.false_eq_true, if_false]
        cases hpres : present (word b t c2 (index v 12)) with
        | false => rfl
        | true =>
          rw [hw.small T hu2 rfl (index_lt v 12) hpres]
          rfl

/-! ### Runs -/

/-- The tables that the call needs stand at the first entries, and it maps no page to frame 0. -/
def Call.First : Call → Prop
  | .map virtual physical superpage _ _ _ =>
    index virtual 30 = 0 ∧ (superpage = 0 → index virtual 21 = 0) ∧ align physical (pageShift superpage) ≠ 0
  | .unmap .. => True
  | .prepare virtual => index virtual 30 = 0

theorem First.along {call : Call} (h : First used) (hok : call.Allowed t) (hcall : call.First)
    (A : Along call.way used used') : First used' := by
  have hway : ∀ {u : ℕ}, index u 30 = 0 → ∀ i p, OnWay u (i :: p) → p ≠ [] → i = 0 := by
    rintro u hu i p (heq | heq) hp
    · exact absurd (List.cons.inj heq).2 hp
    · rw [(List.cons.inj heq).1, hu]
  intro i p a ha hp
  rcases A _ _ ha with ha | hw
  · exact h i p a ha hp
  cases call with
  | map virtual physical superpage global rw user =>
    obtain ⟨h30, h21, -⟩ := hcall
    rcases hw with hw | ⟨hs, heq⟩
    · exact hway h30 i p hw hp
    · rw [(List.cons.inj heq).1, h21 hs]
  | unmap virtual superpage => exact hw.elim
  | prepare virtual =>
    refine hway ?_ i p hw hp
    rw [index_align hok le_rfl]
    exact hcall

/-- The state of a page table in a run that keeps to the first entries. -/
structure Plain (b : Buffer) (t : PageTable) : Prop where
  tree : ∃ used fr, Tree b t used fr ∧ Kept b ⟨t, used, fr⟩ ∧ First used
  frames : ∀ v x, walk t v = some x → x.frame ≠ 0

theorem Plain.init {mem : ℕ → ℕ} (h : pgtInit mem b.base b.nr b.p2v = some t) : Plain b t := by
  have T := pgtInit_tree h
  refine ⟨⟨_, _, T, .init h, fun i p a ha _ => ?_⟩, fun v x hx => ?_⟩
  · cases (if_neg (cons_ne_nil i p)).symm.trans ha
  · rw [T.walk_eq, T.view_none (if_neg (cons_ne_nil _ _))] at hx
    cases hx

/-- STEP. -/
theorem Plain.step (h : Plain b t) {call : Call} (hok : call.Allowed t) (hfirst : call.First) : Plain b (call.run t).2 := by
  obtain ⟨used, fr, T, hw, hf⟩ := h.tree
  obtain ⟨used', fr', T', hmoves, A, hout⟩ := call.traced T hok
  refine ⟨⟨used', fr', T', (hmoves trivial).kept T hw, hf.along hok hfirst A⟩, fun v x hx => ?_⟩
  have hold : view b t used v = some x → x.frame ≠ 0 := fun hx => h.frames v x ((T.walk_eq v).trans hx)
  rw [T'.walk_eq] at hx
  rcases hout with ⟨-, hview, -⟩ | ⟨-, hview⟩
  swap
  · exact hold ((hview v).symm.trans hx)
  rw [hview v] at hx
  cases call with
  | map virtual physical superpage global rw user =>
    simp only [Call.effect] at hx
    split at hx
    · cases hx
      exact hfirst.2.2
    · exact hold hx
  | unmap virtual superpage =>
    simp only [Call.effect] at hx
    split at hx
    · cases hx
    · exact hold hx
  | prepare virtual => exact hold hx

theorem Plain.agrees (h : Plain b t) (v : ℕ) : Agrees t v := by
  obtain ⟨used, fr, T, hw, hf⟩ := h.tree
  have heq := T.v2p_eq_view hw.toWritten hf v
  rw [← T.walk_eq] at heq
  cases hwalk : walk t v with
  | none =>
    rw [hwalk] at heq
    exact ⟨⟨fun _ => hwalk, fun _ => heq⟩, fun x hx => by rw [hwalk] at hx; cases hx⟩
  | some x =>
    rw [hwalk] at heq
    refine ⟨⟨fun h0 => absurd (heq.symm.trans h0) (h.frames v x hwalk), fun hn => ?_⟩, fun y hy => ?_⟩
    · rw [hwalk] at hn
      cases hn
    · rw [hwalk] at hy
      cases hy
      exact heq

/-- In every run that keeps its tables at the first entries and off frame 0, the software translates every
    address as the hardware does. -/
theorem v2p_agrees_in_first_tables {mem : ℕ → ℕ} {t0 : PageTable} (hinit : pgtInit mem b.base b.nr b.p2v = some t0)
    (hrun : Relation.ReflTransGen (fun t t' => ∃ call : Call, call.Allowed t ∧ call.First ∧ t' = (call.run t).2) t0 t)
    (v : ℕ) : Agrees t v := by
  have hplain : Plain b t := by
    refine Run.invariant (P := Plain b) hrun (.init hinit) ?_
    rintro t t' ht ⟨call, hok, hfirst, rfl⟩
    exact ht.step hok hfirst
  exact hplain.agrees v

/-- A 2 MiB page and a 4 KiB page in the first 4 MiB. -/
theorem v2p_agrees_in_first_tables_two_pages : ∃ t, pgtV2p t 0x201234 = 0x600000 ∧ pgtV2p t 0x1234 = 0x5000 ∧
    ∀ v, Agrees t v := by
  obtain ⟨t0, h0⟩ : ∃ t0, pgtInit (fun _ => 0) fourPages.base fourPages.nr fourPages.p2v = some t0 := ⟨_, rfl⟩
  obtain ⟨t1, h1⟩ : ∃ t1, t1 = (pgtMap t0 0x200000 0x600000 1 0 1 0).2 := ⟨_, rfl⟩
  have hnone : walk t1 0x1000 = none := by
    cases h0
    subst h1
    decide +kernel
  have hsmall : ¬InLarge t1 0x1000 := by
    rintro ⟨x, hx, -⟩
    rw [hnone] at hx
    cases hx
  refine ⟨(pgtMap t1 0x1000 0x5000 0 0 1 0).2, ?_, ?_, v2p_agrees_in_first_tables (b := fourPages) h0 ?_⟩
  · cases h0
    subst h1
    decide +kernel
  · cases h0
    subst h1
    decide +kernel
  · refine (Relation.ReflTransGen.single ⟨.map 0x200000 0x600000 1 0 1 0, ⟨by decide, by decide, nofun⟩, ?_, h1⟩).tail
      ⟨.map 0x1000 0x5000 0 0 1 0, ⟨by decide, by decide, fun _ => hsmall⟩, ?_, rfl⟩
    · exact ⟨by decide, fun _ => by decide, by decide⟩
    · exact ⟨by decide, nofun, by decide⟩

/-- With two directories in a PDPT, the second one is not found. -/
theorem v2p_misses_second_directory : ∃ t, Reach fourPages t ∧
    walk t 0x40001234 = some ⟨0x600000, 0x200000, true, false⟩ ∧ pgtV2p t 0x40001234 = 0 := by
  obtain ⟨t0, h0⟩ : ∃ t0, pgtInit (fun _ => 0) fourPages.base fourPages.nr fourPages.p2v = some t0 := ⟨_, rfl⟩
  refine ⟨(pgtMap (pgtPrepare t0 0).2 0x40000000 0x600000 1 0 1 0).2, ⟨_, t0, h0, ?_⟩, ?_, ?_⟩
  · exact (Relation.ReflTransGen.single ⟨.prepare 0, (by decide : 0 < 2 ^ 64), rfl⟩).tail
      ⟨.map 0x40000000 0x600000 1 0 1 0, ⟨by decide, by decide, nofun⟩, rfl⟩
  · cases h0
    decide +kernel
  · cases h0
    decide +kernel

end Advos.Pgt
