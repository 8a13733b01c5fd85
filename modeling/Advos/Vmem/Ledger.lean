import Advos.Schemes.Shares
import Advos.Vmem.Effects
import Advos.Vmem.Spans

/-! Who owns the frames.

    A ledger next to the environment has the frames that `phys_mem_alloc` gave and that were not
    returned since, with their order, zone and domain; it turns `bad` when `phys_mem_free` is called
    for anything else. The objects of a space have shares of the ledger, the frames of their pages that
    are not wired:

        ledger   r0 r1 r2 r3 r4
        objects  [r0 r1] [r3] [w w]          w is wired, r2 and r4 are lost

    A range that fails may lose frames. Freeing an entry returns the frames of all its pages, wired
    ones too. -/

namespace Advos.Space
open Vmem SearchTree Word Shares Function List

variable {σ : Type} {E : Env σ} {v : ℕ} {live : σ → Set ℕ}

/-- Physical address, order, zone and domain. -/
abbrev Frame := ℕ × ℕ × ℕ × ℕ

structure Ledger where
  out : Multiset Frame
  bad : Bool

def ledger : Recorder Ledger where
  physAlloc l r k z d :=
    match r with
    | none => l
    | some r => { l with out := (r, k, z, d) ::ₘ l.out }
  physFree l r k z d :=
    if (r, k, z, d) ∈ l.out then { l with out := l.out.erase (r, k, z, d) } else { l with bad := true }
  refuse _ _ _ := false
  map l _ _ _ := l
  unmap l _ _ _ := l

/-- The environment with the ledger. -/
abbrev noted (E : Env σ) : Env (σ × Ledger) := recorded E ledger

def frameOf (p : Page) : Frame := (p.physical, p.order, p.zone, p.numadomain)

def framesOf (ps : List Page) : Multiset Frame := ps.map frameOf

@[simp] theorem framesOf_nil : framesOf [] = 0 := rfl

@[simp] theorem framesOf_cons (p : Page) (ps : List Page) : framesOf (p :: ps) = frameOf p ::ₘ framesOf ps := rfl

@[simp] theorem framesOf_append (ps qs : List Page) : framesOf (ps ++ qs) = framesOf ps + framesOf qs := by
  simp [framesOf]

theorem framesOf_eq_zero {ps : List Page} : framesOf ps = 0 ↔ ps = [] := by
  simp [framesOf]

theorem framesOf_mono {ps qs : List Page} (h : ps.Sublist qs) : framesOf ps ≤ framesOf qs :=
  (h.map frameOf).subperm

/-- `MEMORY_PGF_WIRED`. -/
def isWired (p : Page) : Bool := p.flags.testBit 0

/-- The frames of the pages of an object, but for those that are wired. -/
def share {τ : Type} (M : Machine τ) (o : ℕ) : Multiset Frame :=
  framesOf ((M.obj o).pages.filter fun p => !isWired p)

/-! ### What the loops do to the ledger -/

section Loops
variable {M M' : Machine (σ × Ledger)}

theorem noted_physAlloc {s s' : σ × Ledger} {k z d : ℕ} {r : Option ℕ} (h : (noted E).physAlloc s k z d = (r, s')) :
    s'.2 = ledger.physAlloc s.2 r k z d := by
  obtain ⟨hr, rfl⟩ := Prod.mk.inj h
  rw [← hr]

theorem noted_map {s s' : σ × Ledger} {a x fl : ℕ} {p : Page} {ret : ℤ} (h : (noted E).map s a x p fl = (ret, s')) :
    s'.2 = s.2 := by
  simp only [recorded, ledger, Bool.false_eq_true, if_false] at h
  cases h
  rfl

theorem ledger_physFree (out : Multiset Frame) (bad : Bool) (r k z d : ℕ) :
    ledger.physFree ⟨(r, k, z, d) ::ₘ out, bad⟩ r k z d = ⟨out, bad⟩ := by
  simp [ledger]

/-- The frames that a loop has taken for its pages: none if they are wired. -/
def taken (wired : Bool) (ps : List Page) : Multiset Frame := if wired then 0 else framesOf ps

/-- A round of a page loop takes the frame of the page it makes. -/
def NotesPage (wired : Bool)
    (step : ℕ → Page → Machine (σ × Ledger) → Option Page × Machine (σ × Ledger)) : Prop :=
  ∀ {x t M r M'}, step x t M = (r, M') →
    M'.env.2 = ⟨taken wired r.toList + M.env.2.out, M.env.2.bad⟩ ∧ ∀ p ∈ r, p.flags = t.flags

theorem allocPage_notes (v : ℕ) : NotesPage false (allocPage (noted E) v) := by
  have H : Inert (noted E) Prod.snd := recorded_inert E ledger
  intro x t M r M' h
  rcases allocPage_cases h with ⟨rfl, hnode⟩ | ⟨p, M1, hnode, ⟨s, hs, rfl, rfl⟩ | ⟨page, s, ret, s', hs, hpage, hmap, hcases⟩⟩
  · rw [H.allocated hnode]
    exact ⟨by simp [taken], by simp⟩
  · have hphys : s.2 = M1.env.2 := noted_physAlloc hs
    rw [H.freeNode]
    dsimp only
    rw [hphys, H.allocated hnode]
    exact ⟨by simp [taken], by simp⟩
  have hmapped : s'.2 = ⟨frameOf page ::ₘ M.env.2.out, M.env.2.bad⟩ := by
    have hphys : s.2 = ⟨(page.physical, t.order, t.zone, t.numadomain) ::ₘ M1.env.2.out, M1.env.2.bad⟩ :=
      noted_physAlloc hs
    rw [noted_map hmap, hphys, H.allocated hnode, hpage]
    rfl
  rcases hcases with ⟨-, rfl, rfl⟩ | ⟨-, rfl, rfl⟩
  · refine ⟨?_, by simp⟩
    have hback := H.freeNode v p { M1 with env := s' }
    change ledger.physFree _ page.physical page.order page.zone page.numadomain = _
    rw [hback, hmapped]
    simp [taken, frameOf, ledger_physFree]
  · refine ⟨hmapped.trans (by simp [taken]), fun q hq => ?_⟩
    cases hq
    rw [hpage]

theorem wirePage_notes (v : ℕ) : NotesPage true (wirePage (noted E) v) := by
  have H : Inert (noted E) Prod.snd := recorded_inert E ledger
  intro x t M r M' h
  rcases wirePage_cases h with ⟨rfl, hnode⟩ | ⟨p, M1, ret, s, hnode, hmap, hcases⟩
  · rw [H.allocated hnode]
    exact ⟨by simp [taken], by simp⟩
  have hmapped : s.2 = M.env.2 := (noted_map hmap).trans (H.allocated hnode)
  rcases hcases with ⟨-, rfl, rfl⟩ | ⟨-, rfl, rfl⟩
  · rw [H.freeNode]
    exact ⟨hmapped.trans (by simp [taken]), by simp⟩
  · exact ⟨hmapped.trans (by simp [taken]), by simp⟩

variable {ps : List Page}

/-- TAKEN: a loop takes the frames of the pages it has made. -/
theorem pageLoop_notes {wired : Bool}
    {step : ℕ → Page → Machine (σ × Ledger) → Option Page × Machine (σ × Ledger)} (hstep : NotesPage wired step)
    {plan : List (ℕ × Page)} {ok : Bool} (h : pageLoop step plan M = (ok, ps, M')) :
    M'.env.2 = ⟨taken wired ps + M.env.2.out, M.env.2.bad⟩ ∧ ∀ p ∈ ps, ∃ t ∈ plan, p.flags = t.2.flags := by
  refine pageLoop_rule (R := fun M ps M' => M'.env.2 = ⟨taken wired ps + M.env.2.out, M.env.2.bad⟩ ∧
    ∀ p ∈ ps, ∃ t ∈ plan, p.flags = t.2.flags) ?_ ?_ ?_ h
  · exact fun M => ⟨by simp [taken], by simp⟩
  · exact fun _ hnone => ⟨(hstep hnone).1, by simp⟩
  · rintro x t p ps M M1 M' ht hsome ⟨hall, hmem⟩
    obtain ⟨hone, hflags⟩ := hstep hsome
    refine ⟨?_, fun q hq => ?_⟩
    · rw [hall, hone]
      cases wired with
      | true => simp [taken]
      | false =>
        simp only [taken, Option.toList_some, framesOf_cons, framesOf_nil, Bool.false_eq_true, if_false,
          Multiset.cons_zero, Multiset.singleton_add, Multiset.add_cons, Multiset.cons_add]
    · rcases mem_cons.mp hq with rfl | hq
      · exact ⟨(x, t), ht, hflags q rfl⟩
      · exact hmem q hq

/-- RETURNED: the unwinding returns the frames of the pages, or leaves the ledger alone. -/
theorem unmapPages_notes {x : ℕ} {freePhys bad : Bool} {left : Multiset Frame}
    (hM : M.env.2 = ⟨taken (!freePhys) ps + left, bad⟩) (h : unmapPages (noted E) v freePhys x ps M = .ok M') :
    M'.env.2 = ⟨left, bad⟩ := by
  have H : Inert (noted E) Prod.snd := recorded_inert E ledger
  induction ps generalizing x M with
  | nil =>
    cases h
    rw [hM]
    cases freePhys <;> simp [taken]
  | cons p ps ih =>
    obtain ⟨s, hs, h⟩ := unmapPages_cons h
    have hkeep : s.2 = M.env.2 := by
      obtain ⟨-, rfl⟩ := Prod.mk.inj hs
      rfl
    refine ih ?_ h
    rw [H.freeNode]
    cases freePhys with
    | false => exact hkeep.trans hM
    | true =>
      have hM : M.env.2 = ⟨frameOf p ::ₘ (framesOf ps + left), bad⟩ := by simpa [taken] using hM
      change ledger.physFree s.2 p.physical p.order p.zone p.numadomain = _
      rw [hkeep, hM]
      exact ledger_physFree ..

/-- RETURNED: `_pages_free` returns the frames of the pages. -/
theorem pagesFree_notes {bad : Bool} {left : Multiset Frame} (hM : M.env.2 = ⟨framesOf ps + left, bad⟩) :
    (pagesFree (noted E) v ps M).env.2 = ⟨left, bad⟩ := by
  have H : Inert (noted E) Prod.snd := recorded_inert E ledger
  induction ps generalizing M with
  | nil => rwa [framesOf_nil, zero_add] at hM
  | cons p ps ih =>
    rw [pagesFree]
    refine ih ?_
    rw [H.freeNode]
    have hM : M.env.2 = ⟨frameOf p ::ₘ (framesOf ps + left), bad⟩ := by simpa using hM
    change ledger.physFree M.env.2 p.physical p.order p.zone p.numadomain = _
    rw [hM]
    exact ledger_physFree ..

end Loops

/-! ### Each change keeps the shares -/

/-- Frames may come in; those of an object come in with its entry, or are those it had. An entry that is
    freed gives the share of its object back. -/
def Accounted : Kind → Machine (σ × Ledger) → Machine (σ × Ledger) → Prop
  | .carve own _ x, M, M' => (IsSpan (x.start, x.size) ∧ Paged (x.start, x.size)) ∧
    ∃ new, M'.env.2 = ⟨new + M.env.2.out, M.env.2.bad⟩ ∧
      share M' x.object ≤ if own then new else new + share M x.object
  | .free _ e, M, M' => ∀ left, M.env.2.out = share M (objectOf M e) + left → M'.env.2 = ⟨left, M.env.2.bad⟩
  | _, M, M' => ∃ new, M'.env.2 = ⟨new + M.env.2.out, M.env.2.bad⟩

variable {st st' : St (σ × Ledger)} {T T' : ℕ → Forest}

/-- No frame was returned that was not out, and the objects have their shares. -/
structure Solvent (v : ℕ) (live : σ → Set ℕ) (st : St (σ × Ledger)) (T : ℕ → Forest) : Prop where
  tidy : Tidy v (fun s : σ × Ledger => live s.1) st T
  clean : st.mach.env.2.bad = false
  shares : Distributed {o | Owner.object o ∈ owners st T} (share st.mach) st.mach.env.2.out

theorem share_congr {τ : Type} {M M' : Machine τ} {o : ℕ} (h : M'.obj o = M.obj o) : share M' o = share M o := by
  rw [share, share, h]

theorem Solvent.of {out : Multiset Frame} (S : Solvent v live st T) (htidy : Tidy v (fun s : σ × Ledger => live s.1) st' T')
    (hL : st'.mach.env.2 = ⟨out, st.mach.env.2.bad⟩)
    (hshares : Distributed {o | Owner.object o ∈ owners st' T'} (share st'.mach) out) : Solvent v live st' T' := by
  refine ⟨htidy, ?_, ?_⟩
  · rw [hL]
    exact S.clean
  · rw [hL]
    exact hshares

theorem Solvent.init {M : Machine (σ × Ledger)} (hM : NewSpace v M) (hL : M.env.2 = ⟨0, false⟩) :
    Solvent v live ⟨M, [], []⟩ fun _ => ⟨.nil, .nil, .nil⟩ := by
  refine ⟨Tidy.init hM, by rw [hL], ?_⟩
  have hnone : {o | Owner.object o ∈ owners (⟨M, [], []⟩ : St (σ × Ledger)) fun _ => ⟨.nil, .nil, .nil⟩} = ∅ :=
    Set.eq_empty_iff_forall_notMem.mpr fun o => owners_new M (.object o)
  rw [hnone]
  exact distributed_empty

/-- KEPT: every change keeps the shares distributed over the ledger. -/
theorem Solvent.change (S : Solvent v live st T) (h : Change v (fun s : σ × Ledger => live s.1) Accounted st T st' T') :
    Solvent v live st' T' := by
  have I := S.tidy.intact
  have htidy := h.tidy (fun hR => hR.1) S.tidy
  have hquiet : ∀ {st' : St (σ × Ledger)} {T'}, Tidy v (fun s : σ × Ledger => live s.1) st' T' →
      (∃ new, st'.mach.env.2 = ⟨new + st.mach.env.2.out, st.mach.env.2.bad⟩) → Quiet st T st' T' →
      Solvent v live st' T' := by
    rintro st' T' htidy ⟨new, hnew⟩ q
    refine S.of htidy hnew (S.shares.mono (fun o ho => ?_) (Multiset.le_add_left ..))
    have hown := q.owner.mp ho
    exact ⟨hown, share_congr (q.obj hown)⟩
  cases h with
  | grow h hR => exact hquiet htidy hR (I.quiet_grow h)
  | same hd h hR => exact hquiet htidy hR (I.quiet_same hd h)
  | @carve d f t' e x own M' hd hf h ho hown hR =>
    obtain ⟨-, new, hnew, hshare⟩ := hR
    refine S.of htidy hnew (S.shares.grow (o := x.object) (fun o ho' hne => ?_) fun _ => ?_)
    · obtain ⟨hold, hobj⟩ := I.carved_object hd h ho hne ho'
      exact ⟨hold, share_congr hobj⟩
    · cases own with
      | true => exact .inl hshare
      | false => exact .inr ⟨.inl hown, hshare⟩
  | @free d e t' M' hd he hrefs h hR =>
    have hmem : objectOf st.mach e ∈ {o | Owner.object o ∈ owners st T} := object_owner ⟨d, hd, he⟩
    obtain ⟨left, hout, hleft⟩ := S.shares.take hmem fun o ho =>
      have hold := I.freed_object hd he hrefs h ho
      ⟨hold.1, hold.2.1, share_congr hold.2.2⟩
    exact S.of htidy (hR left hout) hleft
  | @object o M' h hobj hR =>
    obtain ⟨new, hnew⟩ := hR
    refine S.of htidy hnew (S.shares.grow (o := o) (fun o' ho' hne => ?_) fun _ => ?_)
    · obtain ⟨hold, heq⟩ := I.added_object h hne ho'
      exact ⟨hold, share_congr heq⟩
    · refine .inl ?_
      rw [share, hobj.1]
      exact Multiset.zero_le new
  | block h hR => exact hquiet htidy hR (I.quiet_block h)

/-! ### Calls that own what they free -/

theorem Job.plan_wired {j : Job} (hj : j.wired = true) : ∀ t ∈ j.plan, t.2.flags = 3 := by
  cases j with
  | addr => cases hj
  | pages => cases hj
  | wire virtual nr physical =>
    have hwire : ∀ n virtual physical endplus1, ∀ t ∈ wirePlan n virtual physical endplus1, t.2.flags = 3 := by
      intro n
      induction n with
      | zero => simp [wirePlan]
      | succ n ih =>
        intro virtual physical endplus1 t ht
        rw [wirePlan] at ht
        split at ht
        · rcases mem_cons.mp ht with rfl | ht
          · rfl
          · exact ih _ _ _ t ht
        · simp at ht
    exact hwire nr virtual physical _
  | wire2 start nr physical =>
    intro t ht
    obtain ⟨i, hi, rfl⟩ := mem_iff_getElem.mp ht
    simp [Job.plan]

/-- What an object with the pages of a range has, is what the loop took. -/
theorem filter_taken {j : Job} {ps : List Page} (hps : ∀ p ∈ ps, ∃ t ∈ j.plan, p.flags = t.2.flags) :
    framesOf (ps.filter fun p => !isWired p) ≤ taken j.wired ps := by
  cases hw : j.wired with
  | true =>
    have hnil : (ps.filter fun p => !isWired p) = [] := by
      refine filter_eq_nil_iff.mpr fun p hp => ?_
      obtain ⟨t, ht, hflags⟩ := hps p hp
      rw [isWired, hflags, Job.plan_wired hw t ht]
      decide
    rw [hnil]
    exact Multiset.zero_le _
  | false => exact framesOf_mono filter_sublist

/-- Nothing is left over at address 0; and what is wired at any address is granted its nodes and
    mappings, and does not start at address 0. -/
def Paying (E : Env σ) (v : ℕ) (M : Machine σ) (a : ℕ × ℕ) (j : Job) : Prop :=
  (∀ r ∈ rest a j.range, r.1 ≠ 0) ∧ (j.any = true → j.wired = true → j.start ≠ 0 ∧ j.granted E v M = true)

/-- The entry can be freed alone, and none of its pages is wired. -/
def OwnsPages (M : Machine σ) (b e : ℕ) : Prop :=
  FreesAlone M b e ∧ ∀ p ∈ (M.obj (objectOf M e)).pages, isWired p = false

theorem Job.notesPage (j : Job) : NotesPage j.wired (j.step (noted E) v) := by
  rw [Job.step]
  cases j.wired
  · exact allocPage_notes v
  · exact wirePage_notes v

/-- `_alloc_pages` gives the object frames that it has taken, or that it had. -/
theorem allocPages_notes {e : ℕ} {ret : ℤ} {M M' : Machine (σ × Ledger)} (h : allocPages (noted E) v e M = .ok (ret, M')) :
    ∃ new, M'.env.2 = ⟨new + M.env.2.out, M.env.2.bad⟩ ∧
      share M' (M.mem (e + 16)) ≤ new + share M (M.mem (e + 16)) := by
  obtain ⟨o, ho⟩ : ∃ o, M.mem (e + 16) = o := ⟨_, rfl⟩
  have hlower : ∀ off, framesOf (((M.obj o).pages.takeWhile fun p => p.index < off).filter fun p => !isWired p) ≤
      share M o := fun off => framesOf_mono ((takeWhile_sublist _).filter _)
  rcases allocPages_cases h with ⟨-, rfl⟩ | ⟨ok, ps, M1, hloop, hcases⟩
  · exact ⟨0, by simp, by simp⟩
  obtain ⟨hM1, -⟩ := pageLoop_notes (allocPage_notes v) hloop
  rw [ho] at hcases ⊢
  rcases hcases with ⟨-, -, rfl⟩ | ⟨-, -, M2, hunmap, rfl⟩
  · refine ⟨taken false ps, hM1, ?_⟩
    rw [share, setObj_self]
    dsimp only
    split
    · exact Multiset.le_add_left ..
    · rw [filter_append, framesOf_append, add_comm]
      exact add_le_add (framesOf_mono filter_sublist) (hlower _)
  · have hM2 : M2.env.2 = ⟨taken false ps + M.env.2.out, M.env.2.bad⟩ :=
      unmapPages_notes (by rw [hM1]; simp [taken]) hunmap
    refine ⟨taken false ps, hM2, ?_⟩
    rw [share, setObj_self]
    dsimp only
    split
    · exact Multiset.le_add_left ..
    · exact (hlower _).trans (Multiset.le_add_left ..)

theorem accounted_rules (E : Env σ) (v : ℕ) (live : σ × Ledger → Set ℕ) :
    Rules (noted E) v live Accounted true (Paying (noted E) v) (fun a x => ∀ r ∈ rest a (x.start, x.size), r.1 ≠ 0) OwnsPages where
  blockAdd := by
    intro start fin n M M' h
    have hkeep := (recorded_inert E ledger).blockAdd h
    split <;> exact ⟨0, by rw [hkeep, zero_add]⟩
  allocObject := by
    intro size o M M' h
    have hkeep := (recorded_inert E ledger).allocObject h
    split <;> exact ⟨0, by rw [hkeep, zero_add]⟩
  range := by
    intro b f t j n ps M M' _ _ _ hj hmade hobj
    obtain ⟨M1, M2, h₁, hloop, h₂⟩ := (recorded_inert E ledger).rangeMade hmade
    obtain ⟨hnew, hflags⟩ := pageLoop_notes j.notesPage hloop
    refine ⟨hj, taken j.wired ps, by rw [h₂, hnew, h₁], ?_⟩
    rw [share, hobj]
    exact filter_taken hflags
  failed := by
    intro b f j M M' hP _ hno h
    rcases (recorded_inert E ledger).rangeFailed h with hsame | ⟨ok, ps, M1, M2, M3, M4, h₁, hloop, h₃, hunmap, h4⟩
    · exact ⟨0, by rw [hsame, zero_add]⟩
    obtain ⟨hnew, -⟩ := pageLoop_notes j.notesPage hloop
    rw [h₁] at hnew
    suffices hback : ∃ new, M4.env.2 = ⟨new + M.env.2.out, M.env.2.bad⟩ by
      obtain ⟨new, hback⟩ := hback
      exact ⟨new, h4.trans hback⟩
    cases hany : j.any with
    | false =>
      rw [hany] at hunmap
      exact ⟨taken j.wired ps, unmapPages_notes (by rw [h₃, hnew]; simp [taken]) hunmap⟩
    | true =>
      have hw : j.wired = false := by
        by_contra hw
        obtain ⟨hstart, hg⟩ := hP.2 hany (Bool.eq_true_of_not_eq_false hw)
        exact Bool.noConfusion (hg.symm.trans (hno hstart))
      rw [hany] at hunmap
      rw [hw] at hnew
      refine ⟨0, ?_⟩
      rw [zero_add]
      exact unmapPages_notes (by rw [h₃, hnew]; rfl) hunmap
  entry := by
    intro b f e r x M M' _ hx _ hmade
    obtain ⟨M2, ret, h₂, hentry, hobj, hpages, -⟩ := (recorded_inert E ledger).entryMade hmade
    have ho : M2.mem (e + 16) = x.object := congrArg Entry.object hentry
    obtain ⟨new, hnew, hshare⟩ := allocPages_notes hpages
    rw [ho] at hshare
    have hsame : share M2 x.object = share M x.object := by rw [share, share, hobj]
    exact ⟨hx, new, by rw [hnew, h₂], by rwa [hsame] at hshare⟩
  entryFailed := by
    intro b f x M M' _ _ h
    rcases (recorded_inert E ledger).entryFailed h with hsame | ⟨e, M2, ret, h₂, hpages⟩
    · exact ⟨0, by rw [hsame, zero_add]⟩
    · obtain ⟨new, hnew, -⟩ := allocPages_notes hpages
      exact ⟨new, by rw [hnew, h₂]⟩
  freed := by
    intro b e M M' hF h left hleft
    rw [(recorded_inert E ledger).freeEntry h]
    have hall : share M (objectOf M e) = framesOf (M.obj (objectOf M e)).pages := by
      rw [share, filter_eq_self.mpr fun p hp => by rw [hF.2 p hp]; rfl]
    rw [hall] at hleft
    have hL : M.env.2 = ⟨framesOf (M.obj (objectOf M e)).pages + left, M.env.2.bad⟩ := by rw [← hleft]
    exact pagesFree_notes hL
  rangeZero hP _ := hP.1
  entryZero hQ _ := hQ
  alone hF := hF.1
  stay := by
    intro b f j ok a j' M M' hP hany _ hok hw hP'
    refine ⟨hP'.1, fun _ hw' => ?_⟩
    -- a range that is wired at any address is made, so no other block is tried
    exfalso
    obtain ⟨hstart, hg⟩ := hP.2 hany (hw.symm.trans hw')
    cases ok with
    | true => exact hstart hok
    | false => exact Bool.noConfusion (hg.symm.trans (hok hstart))

/-- Where `addr` is free, nothing is left over at address 0 around `size` bytes there. -/
def OffZeroAt (v : ℕ) (st : St σ) (addr size : ℕ) : Prop :=
  ∀ b f, findFree v addr st.mach.mem = .ok (some (b, f)) → ∀ r ∈ rest (span st.mach.mem f) (addr, size), r.1 ≠ 0

def Op.Owns (E : Env σ) (v : ℕ) (st : St σ) : Op → Prop
  | .blockAdd _ _ => True
  | .allocObject _ => True
  | .allocEntry _ addr size _ _ => OffZeroAt v st addr size
  | .allocPages nr _ _ => ∀ d ∈ st.made, ∀ f, searchFitSize d.b (searchSize nr) st.mach.mem = .ok (some f) →
    ∀ r ∈ rest (span st.mach.mem f) (alignStart nr (st.mach.mem f), mul64 nr 4096), r.1 ≠ 0
  | .allocPagesAddr virtual nr _ _ => OffZeroAt v st virtual (mul64 nr 4096)
  | .wire virtual nr _ => OffZeroAt v st virtual (mul64 nr 4096)
  | .wire2 physical nr => ∀ d ∈ st.made, ∀ f, searchFitSize d.b (searchSize nr) st.mach.mem = .ok (some f) →
    (∀ r ∈ rest (span st.mach.mem f) (alignStart nr (st.mach.mem f), mul64 nr 4096), r.1 ≠ 0) ∧
      alignStart nr (st.mach.mem f) ≠ 0 ∧ (Job.wire2 (alignStart nr (st.mach.mem f)) nr physical).granted E v st.mach = true
  | .freePages addr => ∀ b e, findStart v addr st.mach.mem = .ok (some (b, e)) → OwnsPages st.mach b e

theorem Op.Owns.meets {op : Op} {st : St σ} (h : op.Owns E v st) :
    op.Meets v st (Paying E v) (fun a x => ∀ r ∈ rest a (x.start, x.size), r.1 ≠ 0) OwnsPages := by
  cases op with
  | blockAdd => trivial
  | allocObject => trivial
  | allocEntry => exact h
  | allocPages => exact fun d hd f hf => ⟨h d hd f hf, fun _ hw => Bool.noConfusion hw⟩
  | allocPagesAddr => exact fun b f hf => ⟨h b f hf, fun hany => Bool.noConfusion hany⟩
  | wire => exact fun b f hf => ⟨h b f hf, fun hany => Bool.noConfusion hany⟩
  | wire2 => exact fun d hd f hf => ⟨(h d hd f hf).1, fun _ _ => (h d hd f hf).2⟩
  | freePages => exact h

/-- In every run of calls, successful or not, that keep to the condition, `phys_mem_free` is called only
    for frames that `phys_mem_alloc` gave and that were not returned since. -/
theorem frames_owned {M : Machine (σ × Ledger)} (hE : Lawful E v live) (hM : NewSpace v M)
    (hL : M.env.2 = ⟨0, false⟩)
    (h : Relation.ReflTransGen (Call (noted E) v fun st op => op.Owns (noted E) v st) ⟨M, [], []⟩ st) :
    st.mach.env.2.bad = false := by
  obtain ⟨T, S⟩ : ∃ T, Solvent v live st T := by
    refine Run.invariant (P := fun st => ∃ T, Solvent v live st T) h ⟨_, .init hM hL⟩ ?_
    rintro st st' ⟨T, S⟩ ⟨op, done, hv, howns, hrun⟩
    exact (accounted_rules E v _).step (recorded_lawful hE ledger) Solvent.tidy Solvent.change S hv howns.meets (.inr rfl) hrun
  exact S.clean

/-! ### Runs -/

/-- The machine before the first call, with an empty ledger. -/
def unpaid : Machine (Supply × Ledger) := ⟨fun _ => 0, fun _ => ⟨[], 0, 0⟩, ⟨[], 0, 0⟩, ⟨0, false⟩⟩

theorem call_after {ok : St σ → Op → Prop} {st : St σ} {op : Op} (done : Bool) (hv : op.Valid st) (hok : ok st op)
    (h : (op.run E 0x1000 st).toOption.map Prod.fst = some done) : Call E 0x1000 ok st (after E st op) :=
  ⟨op, done, hv, hok, run_after h⟩

/-- Three pages are allocated and freed. -/
theorem frames_owned_three_pages :
    ∃ st, Relation.ReflTransGen (Call (noted supply) 0x1000 fun st op => op.Owns (noted supply) 0x1000 st)
        ⟨unpaid, [], []⟩ st ∧ st.mach.mem (0x10000 + 24) = 0 ∧ st.mach.env.2.bad = false := by
  let E := noted supply
  let st₁ := after E ⟨unpaid, [], []⟩ (.blockAdd 0x10000000 0x1fffffff)
  let st₂ := after E st₁ (.allocPagesAddr 0x10000000 3 1 0)
  let st₃ := after E st₂ (.freePages 0x10000000)
  have hfind₁ : findFree 0x1000 0x10000000 st₁.mach.mem = .ok (some (0x10000, 0x10040)) := by decide +kernel
  have hfind₂ : findStart 0x1000 0x10000000 st₂.mach.mem = .ok (some (0x10000, 0x10080)) := by decide +kernel
  have h₁ : Call E 0x1000 (fun st op => op.Owns E 0x1000 st) ⟨unpaid, [], []⟩ st₁ :=
    call_after true ⟨by decide, by decide⟩ trivial (by decide +kernel)
  have h₂ : Call E 0x1000 (fun st op => op.Owns E 0x1000 st) st₁ st₂ := by
    refine call_after true ⟨by decide, by decide⟩ (fun b f h => ?_) (by decide +kernel)
    obtain ⟨rfl, rfl⟩ := Prod.mk.inj (Option.some.inj (Except.ok.inj (hfind₁.symm.trans h)))
    decide +kernel
  have h₃ : Call E 0x1000 (fun st op => op.Owns E 0x1000 st) st₂ st₃ := by
    refine call_after true (by decide : 0x10000000 < 2 ^ 64) (fun b e h => ?_) (by decide +kernel)
    obtain ⟨rfl, rfl⟩ := Prod.mk.inj (Option.some.inj (Except.ok.inj (hfind₂.symm.trans h)))
    exact ⟨⟨by decide +kernel, .inl (by decide +kernel)⟩, by decide +kernel⟩
  have hrun := ((Relation.ReflTransGen.single h₁).tail h₂).tail h₃
  exact ⟨st₃, hrun, by decide +kernel, frames_owned (M := unpaid) supply_lawful rfl rfl hrun⟩

/-- A page of a device is wired and freed: `phys_mem_free` is called for a frame that was never allocated. -/
theorem wired_frame_freed :
    ∃ st, Relation.ReflTransGen (Call (noted supply) 0x1000 fun _ _ => True) ⟨unpaid, [], []⟩ st ∧
      st.mach.env.2.bad = true := by
  let E := noted supply
  let st₁ := after E ⟨unpaid, [], []⟩ (.blockAdd 0x10000000 0x1fffffff)
  let st₂ := after E st₁ (.wire 0x10000000 1 0xfee00000)
  let st₃ := after E st₂ (.freePages 0x10000000)
  have h₁ : Call E 0x1000 (fun _ _ => True) ⟨unpaid, [], []⟩ st₁ :=
    call_after true ⟨by decide, by decide⟩ trivial (by decide +kernel)
  have h₂ : Call E 0x1000 (fun _ _ => True) st₁ st₂ :=
    call_after true ⟨by decide, by decide, by decide⟩ trivial (by decide +kernel)
  have h₃ : Call E 0x1000 (fun _ _ => True) st₂ st₃ :=
    call_after true (by decide : 0x10000000 < 2 ^ 64) trivial (by decide +kernel)
  exact ⟨st₃, ((Relation.ReflTransGen.single h₁).tail h₂).tail h₃, by decide +kernel⟩

end Advos.Space
