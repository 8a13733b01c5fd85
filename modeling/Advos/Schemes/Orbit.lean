import Mathlib.Dynamics.PeriodicPts.Defs
import Mathlib.Data.Set.Finite.Basic
import Mathlib.Data.Fintype.EquivFin

/-! A walk that moves on by a fixed map while a guard holds.

    Where the places are finitely many, the walk ends exactly when it never comes back to a place it
    has been at: a place met twice is met again and again, and infinitely many different places do
    not fit.

        a ──▶ f a ──▶ f² a ──▶ ... ──▶ fⁱ a ──▶ ... ──▶ fⁱ⁺ᵏ a = fⁱ a
                                         ▲__________________│            -/

namespace Advos.Orbit

variable {α β : Type*} {f : α → α} {a : α}

/-- The walk reaches a place where the guard fails. -/
def Ends (f : α → α) (go : α → Prop) (a : α) : Prop := ∃ n, ¬go (f^[n] a)

/-- The walk comes back to a place it has been at. -/
def Circles (f : α → α) (go : α → Prop) (a : α) : Prop :=
  ∃ i k, 0 < k ∧ (∀ m, m < i + k → go (f^[m] a)) ∧ f^[i + k] a = f^[i] a

/-- A walk that circles has seen all its places by the end of the first round. -/
theorem iterate_mem_of_circle {i k : ℕ} (hk : 0 < k) (h : f^[i + k] a = f^[i] a) (n : ℕ) :
    ∃ m, m < i + k ∧ f^[n] a = f^[m] a := by
  rcases Nat.lt_or_ge n i with hn | hn
  · exact ⟨n, by omega, rfl⟩
  · obtain ⟨d, rfl⟩ := Nat.exists_eq_add_of_le hn
    have hper : Function.IsPeriodicPt f k (f^[i] a) := by
      rw [Function.IsPeriodicPt, Function.IsFixedPt, ← Function.iterate_add_apply, Nat.add_comm]
      exact h
    refine ⟨i + d % k, Nat.add_lt_add_left (Nat.mod_lt d hk) i, ?_⟩
    rw [Nat.add_comm i d, Nat.add_comm i (d % k), Function.iterate_add_apply, Function.iterate_add_apply,
      hper.iterate_mod_apply]

theorem ends_iff {go : α → Prop} (hfin : (Set.range fun n => f^[n] a).Finite) :
    Ends f go a ↔ ¬Circles f go a := by
  constructor
  · rintro ⟨n, hn⟩ ⟨i, k, hk, hgo, hback⟩
    obtain ⟨m, hm, heq⟩ := iterate_mem_of_circle hk hback n
    exact hn (heq ▸ hgo m hm)
  · intro hno
    by_contra hends
    have hgo : ∀ n, go (f^[n] a) := fun n => by
      by_contra hn
      exact hends ⟨n, hn⟩
    -- a walk that never ends would go through infinitely many places
    have hinj : Function.Injective fun n => f^[n] a := by
      intro i j hij
      by_contra hne
      rcases Nat.lt_or_gt_of_ne hne with h | h
      · obtain ⟨k, rfl⟩ := Nat.exists_eq_add_of_lt h
        exact hno ⟨i, k + 1, Nat.succ_pos k, fun m _ => hgo m, hij.symm⟩
      · obtain ⟨k, rfl⟩ := Nat.exists_eq_add_of_lt h
        exact hno ⟨j, k + 1, Nat.succ_pos k, fun m _ => hgo m, hij⟩
    exact Set.infinite_range_of_injective hinj hfin

/-! ### The places of a walk -/

variable (go : α → Prop) [DecidablePred go]

/-- The first `n` places, up to the one where the guard fails. -/
def trail (f : α → α) : ℕ → α → List α
  | 0, _ => []
  | n + 1, a => if go a then a :: trail f n (f a) else []

variable {go}

theorem trail_stop (h : ¬go a) (n : ℕ) : trail go f n a = [] := by
  cases n with
  | zero => rfl
  | succ n => rw [trail, if_neg h]

theorem trail_go (h : go a) (n : ℕ) : trail go f (n + 1) a = a :: trail go f n (f a) := by
  rw [trail, if_pos h]

end Advos.Orbit
