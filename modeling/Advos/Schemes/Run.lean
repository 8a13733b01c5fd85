import Mathlib

/-! Runs of a step relation, and what holds in every state of them; calls that return. -/

namespace Advos

theorem returned {ε α β : Type} {x : Except ε α} {k : α → Except ε β} {r : β} (h : x >>= k = .ok r) :
    ∃ a, x = .ok a ∧ k a = .ok r := by
  match x, h with
  | .ok a, h => exact ⟨a, rfl, h⟩

theorem returned_fst {ε α β : Type} {x : Except ε (α × β)} {a : α} (h : x.toOption.map Prod.fst = some a) :
    ∃ b, x = .ok (a, b) := by
  match x, h with
  | .ok (a', b), h =>
    cases h
    exact ⟨b, rfl⟩

/-- A condition on what a search finds is decided by searching. -/
instance decidableFound {ε α β : Type} (x : Except ε (Option (α × β))) (P : α → β → Prop)
    [∀ a b, Decidable (P a b)] : Decidable (∀ a b, x = .ok (some (a, b)) → P a b) :=
  match x with
  | .ok (some (a, b)) => decidable_of_iff (P a b) (by simp)
  | .ok none => isTrue (by simp)
  | .error _ => isTrue (by simp)

namespace Run

variable {σ : Type*} {step : σ → σ → Prop} {s t : σ}

/-- What the first state has and every step keeps holds in every state a run reaches. -/
theorem invariant {P : σ → Prop} (h : Relation.ReflTransGen step s t) (h0 : P s)
    (hstep : ∀ x y, P x → step x y → P y) : P t := by
  induction h with
  | refl => exact h0
  | tail _ hxy ih => exact hstep _ _ ih hxy

end Run

end Advos
