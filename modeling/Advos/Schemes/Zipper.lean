import Mathlib.Data.List.Induction

/-! A text with a cursor: what stands before it and what stands behind it.

        before      after
        a b c     | d e           text  a b c d e,  cursor 3

    A cursor outside the text cannot be written down. -/

namespace Advos
open List

/-- A list with a cursor in it. -/
structure Zipper (α : Type*) where
  before : List α
  after : List α

namespace Zipper

variable {α : Type*}

def empty : Zipper α := ⟨[], []⟩

def text (z : Zipper α) : List α := z.before ++ z.after

def cursor (z : Zipper α) : ℕ := z.before.length

/-- Put an element in at the cursor; the cursor is behind it then. -/
def insert (c : α) (z : Zipper α) : Zipper α := ⟨z.before ++ [c], z.after⟩

/-- Take out the element before the cursor. -/
def backspace (z : Zipper α) : Zipper α := ⟨z.before.dropLast, z.after⟩

def left (z : Zipper α) : Zipper α :=
  match z.before.getLast? with
  | none => z
  | some c => ⟨z.before.dropLast, c :: z.after⟩

def right (z : Zipper α) : Zipper α :=
  match z.after with
  | [] => z
  | c :: after => ⟨z.before ++ [c], after⟩

theorem cursor_le (z : Zipper α) : z.cursor ≤ z.text.length := by
  rw [cursor, text, length_append]
  exact Nat.le_add_right _ _

theorem text_insert_length (c : α) (z : Zipper α) : (z.insert c).text.length = z.text.length + 1 := by
  simp only [insert, text, length_append, length_singleton]
  omega

theorem backspace_of_nil {z : Zipper α} (h : z.before = []) : z.backspace = z := by
  cases z with
  | mk before after =>
    subst h
    rfl

theorem cursor_backspace (z : Zipper α) : z.backspace.cursor = z.cursor - 1 := length_dropLast

theorem left_text (z : Zipper α) : z.left.text = z.text := by
  cases z with
  | mk before after =>
    induction before using List.reverseRecOn with
    | nil => rfl
    | append_singleton before c _ => simp [left, text]

theorem left_cursor (z : Zipper α) : z.left.cursor = z.cursor - 1 := by
  cases z with
  | mk before after =>
    induction before using List.reverseRecOn with
    | nil => rfl
    | append_singleton before c _ => simp [left, cursor]

theorem right_text (z : Zipper α) : z.right.text = z.text := by
  rcases z with ⟨before, _ | ⟨c, after⟩⟩
  · rfl
  · simp [right, text]

theorem right_cursor (z : Zipper α) : z.right.cursor = if z.cursor = z.text.length then z.cursor else z.cursor + 1 := by
  rcases z with ⟨before, _ | ⟨c, after⟩⟩
  · simp [right, cursor, text]
  · simp [right, cursor, text]

end Zipper

end Advos
