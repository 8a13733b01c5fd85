import Advos.Vmem.Spans

/-! The list of the pages of an object (`_alloc_pages`).

    The pages are kept in order of their indices, and those of a new entry are put in their place:

        before   0  1           6  7
        entry          3  4  5
        after    0  1  3  4  5

    The last new page becomes the end of the list, so the pages behind the place are dropped. -/

namespace Advos.Vmem
open Word List

variable {σ : Type} {E : Env σ} {v e : ℕ} {M M' : Machine σ}

/-- In order of the indices, none twice. -/
def InOrder (ps : List Page) : Prop := ps.Pairwise fun p q => p.index < q.index

/-- A loop that comes to its end has made the pages of its plan, but for what a round sets. -/
theorem pageLoop_made {α : Type} {g : Page → α} {step : ℕ → Page → Machine σ → Option Page × Machine σ}
    (hstep : ∀ {x t M p M'}, step x t M = (some p, M') → g p = g t) {plan : List (ℕ × Page)} {ps : List Page}
    (h : pageLoop step plan M = (true, ps, M')) : ps.map g = plan.map fun t => g t.2 := by
  induction plan generalizing M ps with
  | nil =>
    obtain ⟨-, hrest⟩ := Prod.mk.inj h
    cases hrest
    rfl
  | cons t plan ih =>
    rw [pageLoop] at h
    split at h
    · next M₁ h₁ => cases (Prod.mk.inj h).1
    next p M₁ h₁ =>
    split at h
    next ok ps' M2 h₂ =>
    obtain ⟨rfl, hrest⟩ := Prod.mk.inj h
    cases hrest
    rw [map_cons, map_cons, ih h₂, hstep h₁]

section Lists
variable {ps new : List Page} {lo hi : ℕ}

theorem InOrder.lower (h : InOrder ps) : ps.takeWhile (fun p => p.index < lo) = ps.filter fun p => p.index < lo := by
  induction ps with
  | nil => rfl
  | cons p ps ih =>
    obtain ⟨hp, hps⟩ := pairwise_cons.mp h
    by_cases hlt : p.index < lo
    · simp [hlt, ih hps]
    · have hnone : ps.filter (fun p => p.index < lo) = [] := by
        refine filter_eq_nil_iff.mpr fun q hq => ?_
        have := hp q hq
        simp
        omega
      simp [hlt, hnone]

end Lists

end Advos.Vmem
