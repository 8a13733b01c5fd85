import Mathlib

/-! Lists linked through memory.

    `Chain next head l`: from the pointer `head` the `next` fields lead through the cells of `l`, in
    that order, and then to NULL.

        head ──▶ a ──▶ b ──▶ c ──▶ NULL          Chain next head [a, b, c]

    The cells of a chain are met once each, a write to a cell outside it does not change it, and
    pushing, popping and unlinking a cell are one write. The loops over a chain take fuel: a chain
    that is not longer is walked to its end, a cycle is not. -/

namespace Advos.Linked
open List

variable {α : Type*} {next next' : α → Option α} {head : Option α} {a b : α} {l l' : List α}

/-- The cells met from `head` on, up to NULL, are `l`. -/
def Chain (next : α → Option α) : Option α → List α → Prop
  | head, [] => head = none
  | head, a :: l => head = some a ∧ Chain next (next a) l

instance decidableChain [DecidableEq α] : ∀ (head : Option α) (l : List α), Decidable (Chain next head l)
  | head, [] => inferInstanceAs (Decidable (head = none))
  | head, a :: l =>
    have := decidableChain (next a) l
    inferInstanceAs (Decidable (head = some a ∧ Chain next (next a) l))

@[simp] theorem chain_nil : Chain next head [] ↔ head = none := Iff.rfl

@[simp] theorem chain_cons : Chain next head (a :: l) ↔ head = some a ∧ Chain next (next a) l :=
  Iff.rfl

theorem Chain.unique : ∀ {l l' : List α} {head : Option α}, Chain next head l →
    Chain next head l' → l = l'
  | [], [], _, _, _ => rfl
  | [], b :: l', head, h, h' => by rw [chain_nil] at h; rw [h] at h'; exact absurd h'.1 (by simp)
  | a :: l, [], head, h, h' => by rw [chain_nil] at h'; rw [h'] at h; exact absurd h.1 (by simp)
  | a :: l, b :: l', head, ⟨ha, h⟩, ⟨hb, h'⟩ => by
      obtain rfl : a = b := by rw [ha] at hb; exact Option.some.inj hb
      rw [h.unique h']

theorem Chain.eq_nil (h : Chain next none l) : l = [] := h.unique rfl

theorem Chain.pop (h : Chain next (some a) l) : ∃ rest, l = a :: rest ∧ Chain next (next a) rest := by
  cases l with
  | nil => simp at h
  | cons c rest =>
    obtain ⟨hc, hrest⟩ := h
    cases hc
    exact ⟨rest, rfl, hrest⟩

theorem Chain.append : ∀ {l : List α} {head : Option α}, Chain next head (l ++ a :: l') →
    Chain next (some a) (a :: l')
  | [], _, h => ⟨rfl, h.2⟩
  | _ :: l, _, h => Chain.append (l := l) h.2

/-- No cell is met twice: from its second visit on the chain would not end. -/
theorem Chain.nodup : ∀ {l : List α} {head : Option α}, Chain next head l → l.Nodup
  | [], _, _ => nodup_nil
  | a :: l, _, ⟨_, h⟩ => by
      refine nodup_cons.mpr ⟨fun hmem => ?_, h.nodup⟩
      obtain ⟨pre, post, rfl⟩ := append_of_mem hmem
      have heq : pre ++ a :: post = post := h.unique h.append.2
      have := congrArg List.length heq
      simp only [length_append, length_cons] at this
      omega

theorem Chain.congr : ∀ {l : List α} {head : Option α}, (∀ a ∈ l, next' a = next a) →
    Chain next head l → Chain next' head l
  | [], _, _, h => h
  | a :: l, _, heq, ⟨ha, h⟩ => by
      refine ⟨ha, ?_⟩
      rw [heq a mem_cons_self]
      exact h.congr fun b hb => heq b (mem_cons_of_mem _ hb)

theorem Chain.head_mem (h : Chain next (some a) l) : a ∈ l := by
  obtain ⟨rest, rfl, -⟩ := h.pop
  exact mem_cons_self

/-! ### Loops over a chain -/

/-- The search loop: the first cell that meets `p`; no answer when the fuel runs out. -/
def walk (next : α → Option α) (p : α → Bool) : ℕ → Option α → Option (Option α)
  | _, none => some none
  | 0, some _ => none
  | fuel + 1, some a => if p a then some (some a) else walk next p fuel (next a)

variable {p : α → Bool}

theorem Chain.walk_eq : ∀ {l : List α} {head : Option α} {fuel : ℕ},
    Chain next head l → l.length ≤ fuel → walk next p fuel head = some (l.find? p)
  | [], _, 0, h, _ => by rw [chain_nil] at h; rw [h]; rfl
  | [], _, _ + 1, h, _ => by rw [chain_nil] at h; rw [h]; rfl
  | a :: l, _, 0, _, hlen => by simp at hlen
  | a :: l, _, fuel + 1, ⟨ha, h⟩, hlen => by
      rw [ha, walk, List.find?_cons]
      cases hp : p a with
      | true => rfl
      | false =>
        simp only [Bool.false_eq_true, if_false]
        exact h.walk_eq (Nat.le_of_succ_le_succ hlen)

/-- What the search loop finds lies in every set the links do not leave. -/
theorem walk_closed {S : α → Prop} (hS : ∀ x, S x → ∀ y, next x = some y → S y) {s : α} :
    ∀ {fuel : ℕ} {head : Option α}, (∀ x, head = some x → S x) →
      walk next p fuel head = some (some s) → S s
  | 0, none, _, h => by simp [walk] at h
  | 0, some x, _, h => by simp [walk] at h
  | fuel + 1, none, _, h => by simp [walk] at h
  | fuel + 1, some x, hx, h => by
      rw [walk] at h
      cases hp : p x with
      | true =>
        rw [hp, if_pos rfl] at h
        obtain rfl := Option.some.inj (Option.some.inj h)
        exact hx x rfl
      | false =>
        rw [hp, if_neg (by simp)] at h
        exact walk_closed hS (hS x (hx x rfl)) h

theorem walk_meets {s : α} : ∀ {fuel : ℕ} {head : Option α},
    walk next p fuel head = some (some s) → p s = true
  | 0, none, h | 0, some _, h | _ + 1, none, h => by simp [walk] at h
  | fuel + 1, some x, h => by
      rw [walk] at h
      split at h
      · next hp =>
        obtain rfl := Option.some.inj (Option.some.inj h)
        exact hp
      · exact walk_meets h

section Update
variable [DecidableEq α]

theorem Chain.update {v : Option α} (h : Chain next head l) (ha : a ∉ l) :
    Chain (Function.update next a v) head l := by
  refine h.congr fun b hb => ?_
  have hne : b ≠ a := by rintro rfl; exact ha hb
  rw [Function.update_of_ne hne]

theorem Chain.push (h : Chain next head l) (ha : a ∉ l) :
    Chain (Function.update next a head) (some a) (a :: l) := by
  refine ⟨rfl, ?_⟩
  rw [Function.update_self]
  exact h.update ha

/-- The removal loop: the link that leads to `s` is set to what follows `s`. -/
def unlink (next : α → Option α) (s : α) : ℕ → Option α → Option (Option α × (α → Option α))
  | _, none => some (none, next)
  | 0, some _ => none
  | fuel + 1, some a =>
    if a = s then some (next s, next)
    else (unlink next s fuel (next a)).map fun r => (some a, Function.update r.2 a r.1)

theorem Chain.unlink_eq {s : α} : ∀ {l : List α} {head : Option α} {fuel : ℕ},
    Chain next head l → l.length ≤ fuel → ∃ head' next',
      unlink next s fuel head = some (head', next') ∧ Chain next' head' (l.erase s) ∧
        ∀ x, x ∉ l → next' x = next x
  | [], _, fuel, h, _ => by
      rw [chain_nil] at h
      exact ⟨none, next, by rw [h]; cases fuel <;> rfl, rfl, fun _ _ => rfl⟩
  | a :: l, _, 0, _, hlen => by simp at hlen
  | a :: l, _, fuel + 1, ⟨ha, h⟩, hlen => by
      rw [ha, unlink]
      by_cases has : a = s
      · subst has
        rw [if_pos rfl, erase_cons_head]
        exact ⟨next a, next, rfl, h, fun _ _ => rfl⟩
      · have hcons : Chain next (some a) (a :: l) := ⟨rfl, h⟩
        have hal : a ∉ l := (nodup_cons.mp hcons.nodup).1
        obtain ⟨head', next', heq, hch, hout⟩ := h.unlink_eq (Nat.le_of_succ_le_succ hlen)
        rw [if_neg has, heq, erase_cons_tail (by simpa using has)]
        refine ⟨some a, Function.update next' a head', rfl, ?_, fun x hx => ?_⟩
        · refine ⟨rfl, ?_⟩
          rw [Function.update_self]
          exact hch.update fun hmem => hal (mem_of_mem_erase hmem)
        · rw [mem_cons, not_or] at hx
          rw [Function.update_of_ne hx.1, hout x hx.2]

/-- The removal loop changes only cells of a set the links do not leave, and they still do not leave
    it. -/
theorem unlink_closed {S : α → Prop} (hS : ∀ x, S x → ∀ y, next x = some y → S y) {s : α} :
    ∀ {fuel : ℕ} {head head' : Option α} {next' : α → Option α}, (∀ x, head = some x → S x) →
      unlink next s fuel head = some (head', next') → (∀ x, head' = some x → S x) ∧
        (∀ x, S x → ∀ y, next' x = some y → S y) ∧ ∀ x, ¬ S x → next' x = next x
  | 0, none, _, _, hx, h | _ + 1, none, _, _, hx, h => by
      simp only [unlink, Option.some.injEq, Prod.mk.injEq] at h
      obtain ⟨rfl, rfl⟩ := h
      exact ⟨hx, hS, fun _ _ => rfl⟩
  | 0, some x, _, _, _, h => by simp [unlink] at h
  | fuel + 1, some x, _, _, hx, h => by
      rw [unlink] at h
      by_cases hxs : x = s
      · rw [if_pos hxs] at h
        simp only [Option.some.injEq, Prod.mk.injEq] at h
        obtain ⟨rfl, rfl⟩ := h
        exact ⟨hS s (hxs ▸ hx x rfl), hS, fun _ _ => rfl⟩
      · rw [if_neg hxs] at h
        simp only [Option.map_eq_some_iff, Prod.mk.injEq] at h
        obtain ⟨⟨head1, next1⟩, hrest, rfl, rfl⟩ := h
        obtain ⟨hh, hn, ho⟩ := unlink_closed hS (hS x (hx x rfl)) hrest
        refine ⟨hx, fun y hy z hz => ?_, fun y hy => ?_⟩
        · by_cases hyx : y = x
          · subst hyx
            rw [Function.update_self] at hz
            exact hh z hz
          · rw [Function.update_of_ne hyx] at hz
            exact hn y hy z hz
        · have hyx : y ≠ x := by rintro rfl; exact hy (hx y rfl)
          rw [Function.update_of_ne hyx]
          exact ho y hy

end Update

end Advos.Linked
