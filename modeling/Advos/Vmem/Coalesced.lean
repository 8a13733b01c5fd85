import Advos.Vmem.Spans
import Advos.Vmem.Refused

/-! No two free intervals of a block are adjacent, as long as no freed range is between two of them.

    `_entry_free` looks for one free interval that ends where the range starts or starts where it
    ends, and joins the range to that one only:

        free │ entry │ free        the search returns one of the two
        ─────┴───────┼─────
            joined   │ free        and these stay adjacent

    Where each range freed has one free neighbour at most, which the search finds, and each range
    allocated is at an end of its free interval, the block is one free interval again when the
    last entry is freed. -/

namespace Advos.Space
open Vmem SearchTree Word Arc Tiling List

variable {σ : Type} {E : Env σ} {v : ℕ} {live : σ → Set ℕ} {st st' : St σ} {T T' : ℕ → Forest} {m m' : Mem}

/-! ### What is left over, and what is joined -/

/-- A range that is not empty, at an end of the interval. -/
def AtEnd (f e : ℕ × ℕ) : Prop := AtEdge f e ∧ e.2 ≠ 0

instance (f e : ℕ × ℕ) : Decidable (AtEnd f e) := inferInstanceAs (Decidable (_ ∧ _))

/-- One interval is left over at most. It has an end of the old one, and is next to the range with the
    other. -/
theorem rest_end {f e : ℕ × ℕ} (hf : IsSpan f) (he : IsSpan e) (h : AtEnd f e) : rest f e = [] ∨
    ∃ r, rest f e = [r] ∧ 0 < r.2 ∧ (stop r = stop f ∧ r.1 = stop e ∨ r.1 = f.1 ∧ stop r = e.1) := by
  obtain ⟨⟨hin, hedge⟩, hpos⟩ := h
  obtain ⟨⟨hf1, hf2⟩, he1, he2⟩ := And.intro hf he
  have hedge : f.1 = e.1 ∨ add64 f.1 f.2 = add64 e.1 e.2 := by
    rcases hedge with h | h | h
    · exact .inl h
    · exact .inr h
    · exact absurd h hpos
  rw [rest]
  split_ifs with hall hstart hend
  · exact .inl rfl
  · refine .inr ⟨_, rfl, ?_⟩
    simp only [stop, add64, sub64] at hin ⊢
    omega
  · have hsize : f.2 = sub64 e.1 f.1 + e.2 := by
      simp only [add64, sub64] at hin hend ⊢
      omega
    have hk : sub64 e.1 f.1 < 2 ^ 64 ∧ sub64 e.1 f.1 ≠ 0 ∧ add64 f.1 (sub64 e.1 f.1) = e.1 := by
      simp only [add64, sub64]
      omega
    have hrest : sub64 f.2 e.2 = sub64 e.1 f.1 := by
      rw [hsize, sub64]
      omega
    rw [hrest]
    exact .inr ⟨_, rfl, Nat.pos_of_ne_zero hk.2.1, .inr ⟨rfl, hk.2.2⟩⟩
  · exact absurd (hedge.resolve_left hstart) hend

theorem join_ends {f e : ℕ × ℕ} (he : IsSpan e) (h : Neighbours f e) :
    (join f e).1 = e.1 ∧ stop (join f e) = stop f ∨ (join f e).1 = f.1 ∧ stop (join f e) = stop e := by
  obtain ⟨he1, he2⟩ := he
  simp only [Neighbours] at h
  simp only [join, stop]
  split_ifs with hstart
  · refine .inl ⟨rfl, ?_⟩
    simp only [add64] at hstart ⊢
    omega
  · have hend := h.resolve_left fun heq => hstart heq.symm
    refine .inr ⟨rfl, ?_⟩
    simp only [add64] at hend ⊢
    omega

/-! ### The invariant of a block -/

/-- The block `d` is tiled, no free interval ends where another starts, and no interval is empty, except
    the only one of a block that has no whole page. -/
structure Coalesced (m : Mem) (d : Made) (t : Forest) : Prop where
  tiled : Tiled m d t
  nodup : t.a.inorder.Nodup
  nonempty : t.nodes ≠ []
  entries : ∀ e ∈ t.e.inorder, (span m e).2 ≠ 0
  frees : ∀ f ∈ t.a.inorder, (span m f).2 = 0 → t.nodes = [f] ∧ span m f = firstFree d.start d.fin
  apart : ∀ f ∈ t.a.inorder, ∀ g ∈ t.a.inorder, f ≠ g → stop (span m f) ≠ (span m g).1

section Keep
variable {d : Made} {t t' : Forest}

theorem Coalesced.kept (h : Coalesced m d t) (hk : Kept 16 t.nodes m m') : Coalesced m' d t := by
  have hA : ∀ f ∈ t.a.inorder, span m' f = span m f := fun f hf => hk.span_eq (by decide) (mem_append_left _ hf)
  have hE : ∀ e ∈ t.e.inorder, span m' e = span m e := fun e he => hk.span_eq (by decide) (mem_append_right _ he)
  refine ⟨h.tiled.kept hk, h.nodup, h.nonempty, fun e he => ?_, fun f hf => ?_, fun f hf g hg => ?_⟩
  · rw [hE e he]
    exact h.entries e he
  · rw [hA f hf]
    exact h.frees f hf
  · rw [hA f hf, hA g hg]
    exact h.apart f hf g hg

theorem Tiled.disjoint (h : Tiled m d t) {s s' x : ℕ} (hs : s ∈ t.nodes) (hs' : s' ∈ t.nodes) (hne : s ≠ s')
    (hx : arc (span m s) x = true) : ¬arc (span m s') x = true := by
  intro hx'
  have hpair := pairwise_map.mp h.tiles.pairwise
  have hsymm : Std.Symm fun s s' => ∀ x, ¬(arc (span m s) x = true ∧ arc (span m s') x = true) :=
    ⟨fun _ _ h x hx => h x ⟨hx.2, hx.1⟩⟩
  exact hpair.forall hs hs' hne x ⟨hx, hx'⟩

theorem Tiled.stop_ne (h : Tiled m d t) {s s' : ℕ} (hs : s ∈ t.nodes) (hs' : s' ∈ t.nodes) (hne : s ≠ s')
    (hpos : 0 < (span m s).2) (hpos' : 0 < (span m s').2) : stop (span m s) ≠ stop (span m s') := by
  intro heq
  have hsp := (h.whole s hs).1
  have hsp' := (h.whole s' hs').1
  refine h.disjoint hs hs' hne (arc_last hpos hsp.2 hsp.1) ?_
  rw [heq]
  exact arc_last hpos' hsp'.2 hsp'.1

theorem Tiled.start_ne (h : Tiled m d t) {s s' : ℕ} (hs : s ∈ t.nodes) (hs' : s' ∈ t.nodes) (hne : s ≠ s')
    (hpos : 0 < (span m s).2) (hpos' : 0 < (span m s').2) : (span m s).1 ≠ (span m s').1 := by
  intro heq
  refine h.disjoint hs hs' hne (arc_first hpos (h.whole s hs).1.1) ?_
  rw [heq]
  exact arc_first hpos' (h.whole s' hs').1.1

/-! ### Each change keeps it -/

/-- Every free interval next to the entry is the one that the search finds: there is at most one. -/
def FoundNext (M : Machine σ) (b e : ℕ) : Prop :=
  ∀ t : Forest, Trees b M.mem t.a t.s t.e → ∀ g ∈ t.a.inorder, Neighbours (span M.mem g) (span M.mem e) →
    findNeighborFreeEntry b (M.mem e) (add64 (M.mem e) (M.mem (e + 8))) M.mem = .ok (some g)

variable {b f e : ℕ} {x : Entry} {O : ℕ → Prop} {M M' : Machine σ}

theorem free_ne_entry {Ta Ts Te : BTree ℕ} (H : Trees b m Ta Ts Te) {g s : ℕ} (hg : g ∈ Ta.inorder)
    (hs : s ∈ Te.inorder) : g ≠ s := by
  rintro rfl
  rcases H.apartAE hg hs with h | h <;> omega

theorem Coalesced.pos (h : Coalesced m d t) {g s : ℕ} (hg : g ∈ t.a.inorder) (hs : s ∈ t.nodes) (hne : g ≠ s) :
    0 < (span m g).2 := by
  refine Nat.pos_of_ne_zero fun hz => hne ?_
  rw [(h.frees g hg hz).1] at hs
  exact (mem_singleton.mp hs).symm

/-- SPLIT: what is left over keeps an end of the interval, and is next to the range with the other. -/
theorem Coalesced.carve (h : Coalesced M.mem d t) (hc : Carved v live b f t t' e x M M') (hf : f ∈ t.a.inorder)
    (hend : AtEnd (span M.mem f) (x.start, x.size))
    (hx : IsSpan (x.start, x.size) ∧ Paged (x.start, x.size)) : Coalesced M'.mem d t' := by
  obtain ⟨used, hpa, hspans, -⟩ := hc.frees
  have hfT : f ∈ t.nodes := mem_append_left _ hf
  have hfpos : 0 < (span M.mem f).2 := lt_of_lt_of_le (Nat.pos_of_ne_zero hend.2) (le_of_add_le_right hend.1.1)
  have hold : ∀ g ∈ t.a.inorder.erase f, g ∈ t.a.inorder ∧ g ≠ f ∧ span M'.mem g = span M.mem g ∧
      0 < (span M.mem g).2 := by
    intro g hg
    obtain ⟨hne, hgA⟩ := h.nodup.mem_erase_iff.mp hg
    exact ⟨hgA, hne, hc.keptA.span_eq (by decide) hg, h.pos hgA hfT hne⟩
  have hspanE : span M'.mem e = (x.start, x.size) := span_eq_of_entryAt hc.entry
  have hcases : ∀ g ∈ t'.a.inorder, g ∈ used ∨ g ∈ t.a.inorder.erase f := fun g hg =>
    mem_append.mp (hpa.mem_iff.mp hg)
  -- a part left over, and an old interval
  have hpart : ∀ u ∈ used, used = [u] ∧ 0 < (span M'.mem u).2 ∧
      (stop (span M'.mem u) = stop (span M.mem f) ∧ (span M'.mem u).1 = stop (x.start, x.size) ∨
        (span M'.mem u).1 = (span M.mem f).1 ∧ stop (span M'.mem u) = x.start) := by
    intro u hu
    rcases rest_end (h.tiled.whole f hfT).1 hx.1 hend with hnil | ⟨r, hone, hr⟩
    · rw [hnil, map_eq_nil_iff] at hspans
      rw [hspans] at hu
      cases hu
    · rw [hone] at hspans
      obtain ⟨u', hused, hr'⟩ := map_eq_singleton_iff.mp hspans
      rw [hused] at hu
      obtain rfl := mem_singleton.mp hu
      rw [hr']
      exact ⟨hused, hr⟩
  have hT' := h.tiled.carve hc hf hend.1 hx
  have heT' : e ∈ t'.nodes := mem_append_right _ (hc.entries.mem_iff.mpr mem_cons_self)
  have hAE : ∀ g ∈ t'.a.inorder, g ≠ e := fun g hg =>
    free_ne_entry hc.trees hg (hc.entries.mem_iff.mpr mem_cons_self)
  have hpos' : ∀ g ∈ t'.a.inorder, 0 < (span M'.mem g).2 := by
    intro g hg
    rcases hcases g hg with hg | hg
    · exact (hpart g hg).2.1
    · obtain ⟨-, -, hspan, hpos⟩ := hold g hg
      rwa [hspan]
  have hepos : 0 < (span M'.mem e).2 := hspanE ▸ Nat.pos_of_ne_zero hend.2
  refine ⟨hT', hc.trees.spreadA.nodup (by decide), ne_nil_of_mem heT', fun s hs => ?_,
    fun g hg hz => absurd hz (hpos' g hg).ne', fun g hg g' hg' hne => ?_⟩
  · rcases mem_cons.mp (hc.entries.mem_iff.mp hs) with rfl | hs
    · exact hepos.ne'
    · rw [hc.keptE.span_eq (by decide) hs]
      exact h.entries s hs
  have hgT' := mem_append_left t'.e.inorder hg
  have hgT'' := mem_append_left t'.e.inorder hg'
  rcases hcases g hg with hgu | hgo
  · rcases hcases g' hg' with hgu' | hgo'
    · rw [(hpart g hgu).1, mem_singleton] at hgu'
      exact absurd hgu'.symm hne
    · obtain ⟨hgA, hgne, hspan, -⟩ := hold g' hgo'
      rcases (hpart g hgu).2.2 with ⟨hstop, -⟩ | ⟨-, hstop⟩
      · rw [hstop, hspan]
        exact h.apart f hf g' hgA hgne.symm
      · intro heq
        refine hT'.start_ne heT' hgT'' (hAE g' hg').symm hepos (hpos' g' hg') ?_
        rw [hspanE, ← heq, hstop]
  · obtain ⟨hgA, hgne, hspan, -⟩ := hold g hgo
    rcases hcases g' hg' with hgu' | hgo'
    · rcases (hpart g' hgu').2.2 with ⟨-, hstart⟩ | ⟨hstart, -⟩
      · intro heq
        refine hT'.stop_ne hgT' heT' (hAE g hg) (hpos' g hg) hepos ?_
        rw [heq, hstart, hspanE]
      · rw [hspan, hstart]
        exact h.apart g hgA f hf hgne
    · obtain ⟨hgA', -, hspan', -⟩ := hold g' hgo'
      rw [hspan, hspan']
      exact h.apart g hgA g' hgA' hne

theorem Coalesced.join_pos (h : Coalesced m d t) {f e : ℕ} (hf : f ∈ t.a.inorder) (he : e ∈ t.e.inorder)
    (hnb : Neighbours (span m f) (span m e)) : 0 < (join (span m f) (span m e)).2 := by
  have hfT : f ∈ t.nodes := mem_append_left _ hf
  have heT : e ∈ t.nodes := mem_append_right _ he
  have hjoin := arc_join h.tiled.tiles (firstFree_paged d.start d.fin).1 (h.tiled.whole f hfT).1
    (h.tiled.whole e heT).1 (mem_map_of_mem hfT) (mem_map_of_mem heT) hnb (span m e).1
  rw [arc_first (Nat.pos_of_ne_zero (h.entries e he)) (h.tiled.whole e heT).1.1] at hjoin
  refine Nat.pos_of_ne_zero fun hz => ?_
  rw [show join (span m f) (span m e) = ((join (span m f) (span m e)).1, 0) from Prod.ext rfl hz, arc_empty] at hjoin
  simp at hjoin

/-- JOIN: a range with one free neighbour at most. -/
theorem Coalesced.free (h : Coalesced M.mem d t) (H : Trees b M.mem t.a t.s t.e) (hc : Freed v live b t t' e O M M')
    (hnext : FoundNext M b e) : Coalesced M'.mem d t' := by
  have he : e ∈ t.e.inorder := hc.entries.mem_iff.mpr mem_cons_self
  have heT : e ∈ t.nodes := mem_append_right _ he
  have hAE : ∀ g ∈ t.a.inorder, g ≠ e := fun g hg => free_ne_entry H hg he
  have hpos : ∀ g ∈ t.a.inorder, 0 < (span M.mem g).2 := fun g hg => h.pos hg heT (hAE g hg)
  have hentries : ∀ s ∈ t'.e.inorder, (span M'.mem s).2 ≠ 0 := by
    intro s hs
    rw [hc.keptE.span_eq (by decide) hs]
    exact h.entries s (hc.entries.mem_iff.mpr (mem_cons_of_mem _ hs))
  have hnodup : t'.a.inorder.Nodup := hc.trees.spreadA.nodup (by decide)
  rcases hc.frees with ⟨hpa, hse, hk⟩ | ⟨f, hf, hpa, hnb, hsf, hk⟩
  · have heA : e ∈ t'.a.inorder := hpa.mem_iff.mpr mem_cons_self
    -- the search found nothing, so no interval is next to the range
    have hno : ∀ g ∈ t.a.inorder, ¬Neighbours (span M.mem g) (span M.mem e) := by
      intro g hg hnb
      have hfound := hnext t H g hg hnb
      rw [hc.alone heA] at hfound
      cases hfound
    have hspan : ∀ g ∈ t.a.inorder, span M'.mem g = span M.mem g := fun g hg => hk.span_eq (by decide) hg
    have hcases : ∀ g ∈ t'.a.inorder, g = e ∨ g ∈ t.a.inorder := fun g hg =>
      mem_cons.mp (hpa.mem_iff.mp hg)
    refine ⟨h.tiled.free hc, hnodup, ne_nil_of_mem (mem_append_left _ heA), hentries,
      fun g hg hz => absurd hz ?_, fun g hg g' hg' hne => ?_⟩
    · rcases hcases g hg with rfl | hg
      · rw [hse]
        exact h.entries g he
      · rw [hspan g hg]
        exact (hpos g hg).ne'
    · rcases hcases g hg with rfl | hg <;> rcases hcases g' hg' with rfl | hg'
      · exact absurd rfl hne
      · rw [hse, hspan g' hg']
        exact fun heq => hno g' hg' (.inl heq)
      · rw [hse, hspan g hg]
        exact fun heq => hno g hg (.inr heq.symm)
      · rw [hspan g hg, hspan g' hg']
        exact h.apart g hg g' hg' hne
  · -- the range is joined to the only interval next to it
    have hold : ∀ g ∈ t.a.inorder.erase f, g ∈ t.a.inorder ∧ g ≠ f ∧ span M'.mem g = span M.mem g ∧
        ¬Neighbours (span M.mem g) (span M.mem e) := by
      intro g hg
      obtain ⟨hne, hgA⟩ := h.nodup.mem_erase_iff.mp hg
      refine ⟨hgA, hne, hk.span_eq (by decide) hg, fun hnb' => hne ?_⟩
      have hfound := (hnext t H f hf hnb).symm.trans (hnext t H g hgA hnb')
      exact (Option.some.inj (Except.ok.inj hfound)).symm
    have hcases : ∀ g ∈ t'.a.inorder, g = f ∨ g ∈ t.a.inorder.erase f := fun g hg =>
      mem_cons.mp (hpa.mem_iff.mp hg)
    have hends := join_ends (h.tiled.whole e heT).1 hnb
    refine ⟨h.tiled.free hc, hnodup,
      ne_nil_of_mem (mem_append_left _ (hpa.mem_iff.mpr mem_cons_self)), hentries,
      fun g hg hz => absurd hz ?_, fun g hg g' hg' hne => ?_⟩
    · rcases hcases g hg with rfl | hg
      · rw [hsf]
        exact (h.join_pos hf he hnb).ne'
      · obtain ⟨hgA, -, hspan, -⟩ := hold g hg
        rw [hspan]
        exact (hpos g hgA).ne'
    · rcases hcases g hg with rfl | hg <;> rcases hcases g' hg' with rfl | hg'
      · exact absurd rfl hne
      · obtain ⟨hgA, hgne, hspan, hno⟩ := hold g' hg'
        rw [hsf, hspan]
        rcases hends with ⟨-, hstop⟩ | ⟨-, hstop⟩ <;> rw [hstop]
        · exact h.apart g hf g' hgA hgne.symm
        · exact fun heq => hno (.inl heq)
      · obtain ⟨hgA, hgne, hspan, hno⟩ := hold g hg
        rw [hsf, hspan]
        rcases hends with ⟨hstart, -⟩ | ⟨hstart, -⟩ <;> rw [hstart]
        · exact fun heq => hno (.inr heq.symm)
        · exact h.apart g hgA g' hf hgne
      · obtain ⟨hgA, -, hspan, -⟩ := hold g hg
        obtain ⟨hgA', -, hspan', -⟩ := hold g' hg'
        rw [hspan, hspan']
        exact h.apart g hgA g' hgA' hne

theorem Coalesced.new {n fr start fin : ℕ} (h : span m fr = firstFree start fin) :
    Coalesced m ⟨n, start, fin⟩ ⟨.node .nil fr .nil, .node .nil fr .nil, .nil⟩ := by
  refine ⟨Tiled.new h, by simp, by simp [Forest.nodes], by simp, fun f hf _ => ?_, fun f hf g hg hne => ?_⟩
  · obtain rfl : f = fr := by simpa using hf
    exact ⟨rfl, h⟩
  · obtain rfl : f = fr := by simpa using hf
    obtain rfl : g = f := by simpa using hg
    exact absurd rfl hne

theorem Coalesced.single (h : Coalesced m d t) (hnone : t.e.inorder = []) :
    ∃ f, t.a.inorder = [f] ∧ span m f = firstFree d.start d.fin := by
  have hnodes : t.nodes = t.a.inorder := by rw [Forest.nodes, hnone, append_nil]
  have hspan := (firstFree_paged d.start d.fin).1
  rcases Nat.eq_zero_or_pos (firstFree d.start d.fin).2 with hz | hpos
  · obtain ⟨f, hf⟩ := exists_mem_of_ne_nil _ h.nonempty
    rw [hnodes] at hf
    have hempty : (span m f).2 = 0 := by
      by_contra hne
      have hfirst := arc_first (Nat.pos_of_ne_zero hne) (h.tiled.whole f (hnodes ▸ hf)).1.1
      have hin := (h.tiled.tiles.mem_iff _).mp ⟨_, mem_map_of_mem (hnodes ▸ hf), hfirst⟩
      rw [show firstFree d.start d.fin = ((firstFree d.start d.fin).1, 0) from Prod.ext rfl hz, arc_empty] at hin
      cases hin
    obtain ⟨hone, hfree⟩ := h.frees f hf hempty
    exact ⟨f, hnodes ▸ hone, hfree⟩
  · have hfrees : ∀ f ∈ t.a.inorder, 0 < (span m f).2 := by
      intro f hf
      refine Nat.pos_of_ne_zero fun hz => ?_
      rw [(h.frees f hf hz).2] at hz
      exact hpos.ne' hz
    have htiles := h.tiled.tiles
    rw [hnodes] at htiles
    have hone := eq_singleton_of_tiles htiles hspan hpos (fun r hr => ?_) fun r hr r' hr' hne => ?_
    · obtain ⟨f, hf, hfr⟩ := map_eq_singleton_iff.mp hone
      exact ⟨f, hf, hfr⟩
    · obtain ⟨f, hf, rfl⟩ := mem_map.mp hr
      exact ⟨(h.tiled.whole f (hnodes ▸ hf)).1, hfrees f hf⟩
    · obtain ⟨f, hf, rfl⟩ := mem_map.mp hr
      obtain ⟨g, hg, rfl⟩ := mem_map.mp hr'
      exact h.apart f hf g hg fun heq => hne (congrArg _ heq)

end Keep

/-! ### A range of the size of the block -/

section Full
variable {M M₁ M₂ : Machine σ} {b f e start size : ℕ} {t : Forest} {keepF1 : Bool}

/-- The only free interval is deleted, and nothing is left over of it. -/
theorem splitFree_all (f0 f1 : ℕ) (keepF1 : Bool) (hE : Lawful E v live) (B : Block live M b t)
    (hf : t.a.inorder = [f]) (he : e ∈ t.e.inorder) (hall : span M.mem f = span M.mem e) : ∃ M', splitFree E v b e f f0 f1 keepF1 M = .ok (true, M') := by
  have hfA : f ∈ t.a.inorder := hf ▸ mem_singleton_self f
  have hta := BTree.inorder_eq_singleton.mp hf
  have hts := BTree.inorder_eq_singleton.mp (perm_singleton.mp (hf ▸ B.trees.same))
  rcases freeDelete_spec B.trees hfA with ⟨Ta', Ts', m', -, -, hdel, -, -⟩ | ⟨hnone, -⟩
  · obtain ⟨-, -, -, -, -, -, hmoves⟩ := B.freeDelete_ok hE hfA hdel
    have hrest : addRest b e f f0 f1 m' = .ok (some [], m') := by
      rw [addRest, hmoves.keptA.span_eq (by decide) hfA, hmoves.keptE.span_eq (by decide) he, hall, rest, if_pos ⟨rfl, rfl⟩]
      rfl
    have hf0 : f ≠ 0 := (B.trees.below f (mem_append_left _ hfA)).1.ne'
    rw [splitFree, hdel]
    simp only [bind, Except.bind, kassert, hf0, ne_eq, not_false_eq_true, decide_true, if_true, hrest]
    exact ⟨_, rfl⟩
  · rw [hta, hts] at hnone
    simp [BTree.delete] at hnone

/-- FULL: a range of the only free interval of a block without entries is allocated. -/
theorem allocRange_all {step : ℕ → Page → Machine σ → Option Page × Machine σ} {plan : List (ℕ × Page)}
    {freePhys : Bool} {n : Nodes} {ps : List Page} (hE : Lawful E v live) (hstep : MakesPage v live step)
    (B : Block live M b t) (hf : t.a.inorder = [f]) (hnone : t.e.inorder = []) (hall : span M.mem f = (start, size))
    (hprep : prepareNodes E v M = (some n, M₁))
    (hloop : pageLoop step plan (withEntry M₁ n start size) = (true, ps, M₂)) :
    ∃ M', allocRange E v b f start size step plan freePhys keepF1 M = .ok (true, M') := by
  obtain ⟨htake, hentry⟩ := pages_made hE hstep hprep hloop
  have hmem : n.e ∈ ps.map Page.addr ++ n.list := mem_append_right _ (by simp [Nodes.list])
  have hB := B.grows htake.within
  have hspare : Spare live _ b t.nodes n.e := Holding.spare htake B hmem
  obtain ⟨ret, m, hadd, -, hret⟩ := entryAdd_spec hB.trees (hspare.fresh hE hB.home)
  have hzero : ret = 0 := by
    rcases hret with ⟨hret, -⟩ | ⟨-, hfull, -⟩
    · exact hret
    · rw [BTree.inorder_eq_nil.mp hnone] at hfull
      cases hfull
  have hpos : ¬ret < 0 := by omega
  obtain ⟨Te', B', hp, hse, hsf⟩ := entryAdd_block hE B htake id (fun _ _ => id) hmem hadd hpos
  obtain ⟨M', hsplit⟩ := splitFree_all n.f0 n.f1 keepF1 hE B' hf
    (hp.mem_iff.mpr mem_cons_self)
    ((hsf f (hf ▸ mem_singleton_self f)).trans (hall.trans (hse.trans (span_eq_of_entryAt hentry)).symm))
  refine ⟨M', ?_⟩
  rw [withEntry] at hloop
  rw [allocRange, hprep]
  simp only [hloop, hadd, hsplit, hpos, bind, Except.bind, Bool.not_true, Bool.false_eq_true, if_false]
  rfl

end Full

/-! ### Every run -/

/-- The structures of the space are intact, and every block is coalesced. -/
structure Joined (v : ℕ) (live : σ → Set ℕ) (st : St σ) (T : ℕ → Forest) : Prop where
  intact : Intact v live st T
  coalesced : ∀ d ∈ st.made, Coalesced st.mach.mem d (T d.b)

theorem Joined.tidy (S : Joined v live st T) : Tidy v live st T :=
  ⟨S.intact, fun d hd => (S.coalesced d hd).tiled.whole⟩

/-- What is carved is at an end of the interval, and what is freed has no neighbour that is not found. -/
def Joining : Kind → Machine σ → Machine σ → Prop
  | .carve _ f x, _, _ => AtEnd f (x.start, x.size) ∧ IsSpan (x.start, x.size) ∧ Paged (x.start, x.size)
  | .free b e, M, _ => FoundNext M b e
  | _, _, _ => True

theorem Joined.change (S : Joined v live st T) (h : Change v live Joining st T st' T') : Joined v live st' T' :=
  ⟨h.intact S.intact, h.blocks Coalesced Coalesced.kept (fun hf hc hR hco => hco.carve hc hf hR.1 hR.2)
    (fun H hc hR hco => hco.free H hc hR) Coalesced.new S.intact S.coalesced⟩

/-- What a call that coalesces says of its range, in the interval `a`. -/
def Ending (_ : Machine σ) (a : ℕ × ℕ) (j : Job) : Prop :=
  AtEnd a j.range ∧ (j.any = true → ∀ r ∈ rest a j.range, r.1 ≠ 0)

/-- A range that is allocated is not empty, at an end of the free interval that is found for it (at any
    address, what is left over does not start at 0). An entry that is freed has an object of its own and
    one free neighbour at most, which the search finds. -/
def Op.Coalesces (v : ℕ) (st : St σ) (op : Op) : Prop :=
  op.Meets v st Ending (fun a x => AtEnd a (x.start, x.size)) fun M b e => FreesAlone M b e ∧ FoundNext M b e

theorem joining_rules (E : Env σ) (v : ℕ) : Rules E v live Joining false Ending
    (fun a x => AtEnd a (x.start, x.size)) fun M b e => FreesAlone M b e ∧ FoundNext M b e where
  blockAdd := by
    intro start fin n M M' _
    split <;> trivial
  allocObject := by
    intro size o M M' _
    split <;> trivial
  range _ _ hP hj _ _ := ⟨hP.1, hj⟩
  failed _ _ _ _ := trivial
  entry hQ hx _ _ := ⟨hQ, hx⟩
  entryFailed _ hfails := absurd hfails (by decide)
  freed hF _ := hF.2
  rangeZero hP hany := hP.2 (hany.resolve_left (by decide))
  entryZero _ hfails := absurd hfails (by decide)
  alone := And.left
  stay _ _ _ _ _ hP := hP

/-- RUN: whatever is called, if all calls coalesce. -/
theorem joined_run {M : Machine σ} (hE : Lawful E v live) (hM : NewSpace v M)
    (h : Relation.ReflTransGen (Step E v fun st op => op.Coalesces v st) ⟨M, [], []⟩ st) :
    ∃ T, Joined v live st T := by
  refine Run.invariant (P := fun st => ∃ T, Joined v live st T) h ⟨_, (Tidy.init hM).intact, by simp⟩ ?_
  rintro st st' ⟨T, S⟩ ⟨op, hv, hmeets, hrun⟩
  exact (joining_rules E v).step hE Joined.tidy Joined.change S hv hmeets (.inl rfl) hrun

/-- The block has a single free interval, the one it was created with. The search by address finds it if
    it does not end at `2 ^ 64`, and a range of its size is allocated, if the nodes and the pages are. -/
structure Regained (E : Env σ) (v : ℕ) (M : Machine σ) (d : Made) (t : Forest) (f : ℕ) : Prop where
  single : t.a.inorder = [f]
  span : span M.mem f = firstFree d.start d.fin
  found : ∀ x, (firstFree d.start d.fin).1 + (firstFree d.start d.fin).2 < 2 ^ 64 →
    arc (firstFree d.start d.fin) x = true → x < 2 ^ 64 → findFreeEntry d.b x M.mem = .ok (some f)
  full : ∀ (j : Job) {n : Nodes} {ps : List Page} {M₁ M₂ : Machine σ}, j.range = firstFree d.start d.fin →
    prepareNodes E v M = (some n, M₁) →
    pageLoop (j.step E v) j.plan (withEntry M₁ n j.start (mul64 j.nr 4096)) = (true, ps, M₂) →
    ∃ M', j.run E v d.b f M = .ok (true, M')

theorem Coalesced.regained {M : Machine σ} {d : Made} {t : Forest} (hE : Lawful E v live)
    (h : Coalesced M.mem d t) (B : Block live M d.b t) (hnone : t.e.inorder = []) : ∃ f, Regained E v M d t f := by
  obtain ⟨f, hone, hspan⟩ := h.single hnone
  refine ⟨f, hone, hspan, fun x hlt hx hx64 => ?_, fun j n ps M₁ M₂ hj hprep hloop => ?_⟩
  · have hin : x ≥ M.mem f ∧ x < add64 (M.mem f) (M.mem (f + 8)) := by
      rw [← hspan] at hlt hx
      change x ≥ (span M.mem f).1 ∧ x < add64 (span M.mem f).1 (span M.mem f).2
      rw [add64_of_lt hlt]
      exact (arc_eq_true hlt.le hx64).mp hx
    rw [B.trees.findFreeEntry_eq, BTree.inorder_eq_singleton.mp hone, BTree.search, condFit, if_pos hin, if_pos rfl]
  · exact allocRange_all hE (j.makesPage hE) B hone hnone (hspan.trans hj.symm) hprep hloop

/-- In every run whose calls all coalesce, no free interval of a block ends where another one starts; and
    a block whose entries are all freed is as it was when it was created. -/
theorem free_intervals_coalesced {M : Machine σ} (hE : Lawful E v live) (hM : NewSpace v M)
    (h : Relation.ReflTransGen (Step E v fun st op => op.Coalesces v st) ⟨M, [], []⟩ st) {d : Made} (hd : d ∈ st.made) :
    ∃ t : Forest, Trees d.b st.mach.mem t.a t.s t.e ∧
      (∀ f ∈ t.a.inorder, ∀ g ∈ t.a.inorder, f ≠ g → stop (span st.mach.mem f) ≠ (span st.mach.mem g).1) ∧
      (t.e.inorder = [] → ∃ f, Regained E v st.mach d t f) := by
  obtain ⟨T, S⟩ := joined_run hE hM h
  exact ⟨T d.b, S.intact.trees d hd, (S.coalesced d hd).apart, (S.coalesced d hd).regained hE (S.intact.block hd)⟩

/-! ### One neighbour, and two -/

theorem Rep.leaf {off p s : ℕ} {T : BTree ℕ} (h : Rep off m p T) (hp : p = s + off) (hs : s ≠ 0)
    (hl : m (s + off) = 0) (hr : m (s + off + 8) = 0) : T.inorder = [s] := by
  cases T with
  | nil =>
    have hz : p = 0 := h
    omega
  | node l y r =>
    obtain ⟨hy, -, hL, hR⟩ := h
    obtain rfl : y = s := by omega
    rw [hL.eq_zero_iff.mp hl, hR.eq_zero_iff.mp hr]
    rfl

/-- Three pages at the start of a block are allocated and freed. -/
theorem free_intervals_coalesced_three_pages : ∃ st d, st.made = [d] ∧
    Relation.ReflTransGen (Step supply 0x1000 fun st op => op.Coalesces 0x1000 st) ⟨blank, [], []⟩ st ∧
    ∃ t : Forest, Trees d.b st.mach.mem t.a t.s t.e ∧
      (∀ f ∈ t.a.inorder, ∀ g ∈ t.a.inorder, f ≠ g → stop (span st.mach.mem f) ≠ (span st.mach.mem g).1) ∧
      (t.e.inorder = [] → ∃ f, Regained supply 0x1000 st.mach d t f) := by
  let st₁ := after supply ⟨blank, [], []⟩ (.blockAdd 0x10000000 0x1fffffff)
  let st₂ := after supply st₁ (.allocPagesAddr 0x10000000 3 1 0)
  let st₃ := after supply st₂ (.freePages 0x10000000)
  have hfree : findFree 0x1000 0x10000000 st₁.mach.mem = .ok (some (0x10000, 0x10040)) := by decide +kernel
  have hentry : findStart 0x1000 0x10000000 st₂.mach.mem = .ok (some (0x10000, 0x10080)) := by decide +kernel
  have h₁ : Step supply 0x1000 (fun st op => op.Coalesces 0x1000 st) ⟨blank, [], []⟩ st₁ :=
    step_after ⟨by decide, by decide⟩ trivial (by decide +kernel)
  have h₂ : Step supply 0x1000 (fun st op => op.Coalesces 0x1000 st) st₁ st₂ := by
    refine step_after ⟨by decide, by decide⟩ (fun b f h => ⟨?_, fun hany => Bool.noConfusion hany⟩) (by decide +kernel)
    obtain ⟨rfl, rfl⟩ := Prod.mk.inj (Option.some.inj (Except.ok.inj (hfree.symm.trans h)))
    decide +kernel
  have h₃ : Step supply 0x1000 (fun st op => op.Coalesces 0x1000 st) st₂ st₃ := by
    refine step_after (show 0x10000000 < 2 ^ 64 by decide) (fun b e h => ?_) (by decide +kernel)
    obtain ⟨rfl, rfl⟩ := Prod.mk.inj (Option.some.inj (Except.ok.inj (hentry.symm.trans h)))
    refine ⟨⟨by decide +kernel, .inl (by decide +kernel)⟩, fun t H g hg _ => ?_⟩
    -- the rest of the block is the only free interval
    have hone : t.a.inorder = [0x10100] :=
      Rep.leaf H.atree (by decide +kernel) (by decide) (by decide +kernel) (by decide +kernel)
    rw [hone] at hg
    obtain rfl := List.mem_singleton.mp hg
    decide +kernel
  have hrun := ((Relation.ReflTransGen.single h₁).tail h₂).tail h₃
  have hmade : st₃.made = [⟨0x10000, 0x10000000, 0x1fffffff⟩] := by decide +kernel
  refine ⟨_, _, hmade, hrun, ?_⟩
  exact free_intervals_coalesced (M := blank) supply_lawful rfl hrun (by rw [hmade]; exact List.mem_singleton_self _)

/-- A block, and two pages at its start, one behind the other. -/
def twoTaken : St Supply :=
  after supply (after supply (after supply ⟨blank, [], []⟩ (.blockAdd 0x10000000 0x1fffffff))
    (.allocPagesAddr 0x10000000 1 1 0)) (.allocPagesAddr 0x10001000 1 1 0)

/-- Then the first page is freed. -/
def firstFreed : St Supply := after supply twoTaken (.freePages 0x10000000)

/-- Then the second one. -/
def bothFreed : St Supply := after supply firstFreed (.freePages 0x10001000)

/-- The second page is between two free intervals when it is freed, and joined to one of them: the two
    stay adjacent, and the range of the whole block is refused. -/
theorem free_intervals_adjacent : ∃ f g,
    Relation.ReflTransGen (Step supply 0x1000 fun _ _ => True) ⟨blank, [], []⟩ bothFreed ∧
    bothFreed.made = [⟨0x10000, 0x10000000, 0x1fffffff⟩] ∧ bothFreed.mach.mem (0x10000 + 24) = 0 ∧
    findFreeEntry 0x10000 0x10000000 bothFreed.mach.mem = .ok (some f) ∧
    findFreeEntry 0x10000 0x10002000 bothFreed.mach.mem = .ok (some g) ∧ f ≠ g ∧
    stop (span bothFreed.mach.mem f) = (span bothFreed.mach.mem g).1 ∧
    (virtMemoryAllocPagesAddr supply 0x1000 0x10000000 0x10000 1 0 bothFreed.mach).toOption.map Prod.fst = some 0 := by
  have hsucc : Succeed supply (fun _ _ => True) ⟨blank, [], []⟩ [.blockAdd 0x10000000 0x1fffffff,
      .allocPagesAddr 0x10000000 1 1 0, .allocPagesAddr 0x10001000 1 1 0, .freePages 0x10000000,
      .freePages 0x10001000] := by decide +kernel
  have hrun := hsucc.steps
  simp only [List.foldl] at hrun
  refine ⟨0x10080, 0x10240, hrun, ?_⟩
  decide +kernel

end Advos.Space
