import Mathlib

/-! A store with one slot.

    There is a value for every key. One of them may be out in the slot, where it is worked on; what the
    store has for that key is then old:

        store   a: 3   b: 0   c: 7          slot   b = 5          the value of b is 5

    To give the slot to another key its value is written back first. -/

namespace Advos

structure Slot (K V : Type*) where
  store : K → V
  owner : Option K
  held : V

namespace Slot
variable {K V : Type*} [DecidableEq K] (s : Slot K V)

/-- The value of a key, wherever it is. -/
def value (k : K) : V := if s.owner = some k then s.held else s.store k

/-- The store after the value in the slot is written back. -/
def flush : K → V :=
  match s.owner with
  | none => s.store
  | some o => Function.update s.store o s.held

/-- The slot is given to `k`. -/
def fetch (k : K) : Slot K V := if s.owner = some k then s else ⟨s.flush, some k, s.flush k⟩

/-- The value in the slot is worked on. -/
def modify (f : V → V) : Slot K V := { s with held := f s.held }

/-- A new value is put into the store. -/
def put (k : K) (v : V) : Slot K V := { s with store := Function.update s.store k v }

theorem flush_apply (k : K) : s.flush k = s.value k := by
  cases h : s.owner with
  | none => simp [flush, value, h]
  | some o =>
    rcases eq_or_ne k o with rfl | hne
    · simp [flush, value, h]
    · simp [flush, value, h, hne, hne.symm]

theorem fetch_owner (k : K) : (s.fetch k).owner = some k := by
  rw [fetch]
  split
  · assumption
  · rfl

theorem fetch_held (k : K) : (s.fetch k).held = s.value k := by
  rw [fetch]
  split
  · next h => rw [value, if_pos h]
  · exact s.flush_apply k

theorem fetch_value (k j : K) : (s.fetch k).value j = s.value j := by
  rw [fetch]
  split
  · rfl
  · rcases eq_or_ne j k with rfl | hne
    · simp [value, flush_apply]
    · rw [← flush_apply s j, value, if_neg fun heq => hne (Option.some.inj heq).symm]

variable {s}

theorem modify_value {k : K} (h : s.owner = some k) (f : V → V) (j : K) :
    (s.modify f).value j = if j = k then f s.held else s.value j := by
  rcases eq_or_ne j k with rfl | hne
  · simp [value, modify, h]
  · simp [value, modify, h, hne, hne.symm]

theorem put_value {k : K} (h : s.owner ≠ some k) (v : V) (j : K) :
    (s.put k v).value j = if j = k then v else s.value j := by
  rcases eq_or_ne j k with rfl | hne
  · simp [value, put, h]
  · simp [value, put, hne]

end Slot

end Advos
