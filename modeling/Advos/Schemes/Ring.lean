import Mathlib.Algebra.Order.Ring.Int
import Mathlib.Data.List.Basic
import Mathlib.Logic.Function.Basic

/-! Ring buffers.

    `n` cells hold a queue of fewer than `n` elements, from `head` on and up to `tail`, around the end:

        cells    | d | e |   |   | a | b | c |          Holds n r [a, b, c, d, e]
                          ▲       ▲
                        tail     head

    One cell stays unused, so that `head = tail` means empty. What is outside the queue is arbitrary. -/

namespace Advos
open Function List

/-- The cells, and where the queue starts and ends. -/
structure RingBuf (α : Type*) where
  buf : ℤ → α
  head : ℤ
  tail : ℤ

namespace RingBuf

variable {α : Type*} {n : ℕ} {r : RingBuf α} {q : List α} {x : α}

/-- The cell behind `cur`. -/
def next (n : ℕ) (cur : ℤ) : ℤ := if cur + 1 < n then cur + 1 else 0

def push (n : ℕ) (x : α) (r : RingBuf α) : RingBuf α :=
  { r with buf := Function.update r.buf r.tail x, tail := next n r.tail }

def pop (n : ℕ) (r : RingBuf α) : RingBuf α := { r with head := next n r.head }

/-- The cell `i` places behind `head`. -/
def slot (n : ℕ) (head : ℤ) (i : ℕ) : ℤ := if head + i < n then head + i else head + i - n

/-- The ring holds the queue `q`, oldest element first. -/
structure Holds (n : ℕ) (r : RingBuf α) (q : List α) : Prop where
  head : 0 ≤ r.head ∧ r.head < n
  room : q.length < n
  tail : r.tail = slot n r.head q.length
  cells : ∀ i x, q[i]? = some x → r.buf (slot n r.head i) = x

theorem holds_nil (hn : 0 < n) (h : 0 ≤ r.head ∧ r.head < n) (ht : r.tail = r.head) : Holds n r [] := by
  refine ⟨h, hn, ?_, by simp⟩
  rw [ht, slot]
  simp only [length_nil]
  split <;> omega

namespace Holds
variable (h : Holds n r q)
include h

theorem tail_mem : 0 ≤ r.tail ∧ r.tail < n := by
  obtain ⟨h0, hn⟩ := h.head
  have hroom := h.room
  rw [h.tail, slot]
  split <;> omega

/-- FULL: the cell behind `tail` is `head` when all cells but one are in use. -/
theorem full_iff : r.head = next n r.tail ↔ q.length = n - 1 := by
  obtain ⟨h0, hn⟩ := h.head
  have hroom := h.room
  rw [h.tail, slot, next]
  split <;> split <;> omega

theorem empty_iff : r.head = r.tail ↔ q = [] := by
  obtain ⟨h0, hn⟩ := h.head
  have hroom := h.room
  rw [← length_eq_zero_iff, h.tail, slot]
  split <;> omega

theorem length_eq :
    (if r.tail ≥ r.head then r.tail - r.head else n + r.tail - r.head) = q.length := by
  obtain ⟨h0, hn⟩ := h.head
  have hroom := h.room
  rw [h.tail, slot]
  split <;> split <;> omega

/-- PUSH: the cell at `tail` is outside the queue. -/
theorem push (hfull : q.length ≠ n - 1) : Holds n (push n x r) (q ++ [x]) := by
  obtain ⟨h0, hn⟩ := h.head
  have hroom := h.room
  refine ⟨h.head, ?_, ?_, fun i y hy => ?_⟩
  · rw [length_append, length_singleton]
    omega
  · change next n r.tail = slot n r.head (q ++ [x]).length
    rw [h.tail, length_append, length_singleton, next, slot, slot]
    push_cast
    split <;> split <;> split <;> omega
  change update r.buf r.tail x (slot n r.head i) = y
  rcases Nat.lt_trichotomy i q.length with hi | rfl | hi
  · rw [List.getElem?_append_left hi] at hy
    rw [update_of_ne, h.cells i y hy]
    rw [h.tail, slot, slot]
    split <;> split <;> omega
  · rw [List.getElem?_append_right (le_refl _), Nat.sub_self] at hy
    rw [h.tail, update_self]
    exact Option.some.inj hy
  · rw [List.getElem?_eq_none (by rw [length_append, length_singleton]; omega)] at hy
    cases hy

end Holds

/-- POP: the oldest element is at `head`. -/
theorem Holds.pop (h : Holds n r (x :: q)) : r.buf r.head = x ∧ Holds n (pop n r) q := by
  obtain ⟨h0, hn⟩ := h.head
  have hroom := h.room
  have htail := h.tail
  rw [length_cons] at hroom htail
  have hslot : ∀ i : ℕ, i ≤ q.length → slot n (next n r.head) i = slot n r.head (i + 1) := by
    intro i hi
    rw [slot, slot, next]
    push_cast
    split <;> split <;> split <;> omega
  refine ⟨?_, ?_, ?_, ?_, fun i y hy => ?_⟩
  · have hx := h.cells 0 x rfl
    rwa [show slot n r.head 0 = r.head by rw [slot]; simp [hn]] at hx
  · change 0 ≤ next n r.head ∧ next n r.head < n
    rw [next]
    split <;> omega
  · omega
  · change r.tail = slot n (next n r.head) q.length
    rw [hslot _ (le_refl _), htail]
  · obtain ⟨hi, -⟩ := List.getElem?_eq_some_iff.mp hy
    change r.buf (slot n (next n r.head) i) = y
    rw [hslot i hi.le]
    exact h.cells (i + 1) y (by rwa [List.getElem?_cons_succ])

end RingBuf

end Advos
