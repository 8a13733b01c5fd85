import Mathlib.Logic.Basic
import Mathlib.Tactic.Common

/-! A step function run over a list of inputs, and the states on the way.

        s ── a ──▶ s₁ ── b ──▶ s₂ ── ...

    `Throughout` asks for a property in every one of them, `AllFit` asks of every input that it meets a
    condition in the state that it finds. Where one step keeps the property exactly under the condition,
    a run does. -/

namespace Advos.Trace

variable {σ α : Type*}

/-- The property holds in a state and in every state on the way through some inputs. -/
def Throughout (step : σ → α → σ) (P : σ → Prop) : σ → List α → Prop
  | s, [] => P s
  | s, a :: rest => P s ∧ Throughout step P (step s a) rest

/-- Every input meets the condition in the state it finds. -/
def AllFit (step : σ → α → σ) (Fits : σ → α → Prop) : σ → List α → Prop
  | _, [] => True
  | s, a :: rest => Fits s a ∧ AllFit step Fits (step s a) rest

variable {step : σ → α → σ} {P Q : σ → Prop} {Fits : σ → α → Prop} {s : σ} {inputs : List α}

theorem Throughout.head (h : Throughout step P s inputs) : P s := by
  cases inputs with
  | nil => exact h
  | cons a rest => exact h.1

/-- `Q` is an invariant that every step keeps; with it, a step keeps `P` iff its input fits. -/
theorem throughout_iff (hQ : ∀ s a, Q s → Q (step s a)) (hstep : ∀ s a, P s → Q s → (P (step s a) ↔ Fits s a))
    (hs : P s) (hq : Q s) : Throughout step P s inputs ↔ AllFit step Fits s inputs := by
  induction inputs generalizing s with
  | nil => exact ⟨fun _ => trivial, fun _ => hs⟩
  | cons a rest ih =>
    constructor
    · rintro ⟨-, hrest⟩
      have hnext := hrest.head
      exact ⟨(hstep s a hs hq).mp hnext, (ih hnext (hQ s a hq)).mp hrest⟩
    · rintro ⟨hfit, hrest⟩
      exact ⟨hs, (ih ((hstep s a hs hq).mpr hfit) (hQ s a hq)).mpr hrest⟩

end Advos.Trace
