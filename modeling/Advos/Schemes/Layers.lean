import Mathlib.Data.List.Perm.Basic
import Mathlib.Data.List.Pairwise

/-! Layers on a partial function.

    Values are laid over regions of a partial function, one region after the other and each where there
    was nothing before:

        before      -----aaa-------bb---
        laid              xxxx yy
        after       -----aaaxxxx-yybb---

    Taking the regions away again, in any order, gives the partial function back. -/

namespace Advos.Layers
open List

variable {α β ρ : Type*} {reg : ρ → α → Prop} {val : ρ → β} {l l' : List ρ} {r : ρ} {W W' W'' : α → Option β}

/-- The regions of `l` are laid over `W`, which gives `W'`. -/
structure Laid (reg : ρ → α → Prop) (val : ρ → β) (l : List ρ) (W W' : α → Option β) : Prop where
  fresh : ∀ r ∈ l, ∀ y, reg r y → W y = none
  value : ∀ r ∈ l, ∀ y, reg r y → W' y = some (val r)
  apart : l.Pairwise fun r r' => ∀ y, ¬(reg r y ∧ reg r' y)
  same : ∀ y, (∀ r ∈ l, ¬reg r y) → W' y = W y

theorem Laid.nil (h : ∀ y, W' y = W y) : Laid reg val [] W W' :=
  ⟨by simp, by simp, .nil, fun y _ => h y⟩

theorem Laid.of_nil (h : Laid reg val [] W W') (y : α) : W' y = W y := h.same y (by simp)

theorem Laid.single (hfresh : ∀ y, reg r y → W y = none) (hvalue : ∀ y, reg r y → W' y = some (val r))
    (hsame : ∀ y, ¬reg r y → W' y = W y) : Laid reg val [r] W W' :=
  ⟨by simpa using hfresh, by simpa using hvalue, pairwise_singleton .., fun y hy => hsame y (hy r (by simp))⟩

namespace Laid
variable (h : Laid reg val l W W')
include h

theorem old {y : α} {x : β} (hy : W y = some x) : W' y = some x := by
  rw [h.same y fun r hr hreg => ?_, hy]
  rw [h.fresh r hr y hreg] at hy
  cases hy

theorem cases {y : α} {x : β} (hy : W' y = some x) :
    W y = some x ∨ ∃ r ∈ l, reg r y ∧ x = val r := by
  by_cases hin : ∃ r ∈ l, reg r y
  · obtain ⟨r, hr, hreg⟩ := hin
    rw [h.value r hr y hreg] at hy
    exact .inr ⟨r, hr, hreg, (Option.some.inj hy).symm⟩
  · rw [h.same y fun r hr hreg => hin ⟨r, hr, hreg⟩] at hy
    exact .inl hy

/-- COMPOSE: more regions on top. -/
theorem append (h' : Laid reg val l' W' W'') : Laid reg val (l ++ l') W W'' where
  fresh r hr y hreg := by
    rcases mem_append.mp hr with hr | hr
    · exact h.fresh r hr y hreg
    · have hnone := h'.fresh r hr y hreg
      cases hy : W y with
      | none => rfl
      | some x =>
        rw [h.old hy] at hnone
        cases hnone
  value r hr y hreg := by
    rcases mem_append.mp hr with hr | hr
    · exact h'.old (h.value r hr y hreg)
    · exact h'.value r hr y hreg
  apart := by
    refine pairwise_append.mpr ⟨h.apart, h'.apart, fun r hr r' hr' y hreg => ?_⟩
    have hnone := h'.fresh r' hr' y hreg.2
    rw [h.value r hr y hreg.1] at hnone
    cases hnone
  same y hy := by
    rw [h'.same y fun r hr => hy r (mem_append_right _ hr), h.same y fun r hr => hy r (mem_append_left _ hr)]

theorem perm (hp : l.Perm l') : Laid reg val l' W W' where
  fresh r hr := h.fresh r (hp.mem_iff.mpr hr)
  value r hr := h.value r (hp.mem_iff.mpr hr)
  apart := h.apart.perm hp fun hrr y hy => hrr y hy.symm
  same y hy := h.same y fun r hr => hy r (hp.mem_iff.mp hr)

end Laid

/-- REMOVE: one region is taken away. -/
theorem Laid.remove (h : Laid reg val (r :: l) W W') (hnone : ∀ y, reg r y → W'' y = none)
    (hkeep : ∀ y, ¬reg r y → W'' y = W' y) : Laid reg val l W W'' := by
  obtain ⟨hr, hl⟩ := pairwise_cons.mp h.apart
  refine ⟨fun r' hr' => h.fresh r' (mem_cons_of_mem _ hr'), fun r' hr' y hreg => ?_, hl, fun y hy => ?_⟩
  · rw [hkeep y fun hreg' => hr r' hr' y ⟨hreg', hreg⟩]
    exact h.value r' (mem_cons_of_mem _ hr') y hreg
  · by_cases hreg : reg r y
    · rw [hnone y hreg, h.fresh r mem_cons_self y hreg]
    · rw [hkeep y hreg]
      refine h.same y fun r' hr' => ?_
      rcases mem_cons.mp hr' with rfl | hr'
      · exact hreg
      · exact hy r' hr'

end Advos.Layers
