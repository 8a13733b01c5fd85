import Mathlib

/-! Tokens that are handed out, and owners that each have a share of them.

    The shares are DISTRIBUTED when any owners together hold no more than what is handed out, counted
    with multiplicity. Then every share can be handed back, whole, and the other shares stay
    distributed over what is left:

        out      a a b c d d
        shares   [a b] [a d]          c and one d are with nobody

    Nothing is said of tokens that nobody holds, so losing one is always allowed. -/

namespace Advos.Shares

variable {ι τ : Type*} {own own' : Set ι} {F F' : ι → Multiset τ} {out out' new : Multiset τ} {o : ι}

/-- Any owners together hold at most what is handed out. -/
def Distributed (own : Set ι) (F : ι → Multiset τ) (out : Multiset τ) : Prop :=
  ∀ s : Finset ι, (∀ i ∈ s, i ∈ own) → ∑ i ∈ s, F i ≤ out

theorem Distributed.le (h : Distributed own F out) (ho : o ∈ own) : F o ≤ out := by
  have hsum := h {o} fun i hi => by rwa [Finset.mem_singleton.mp hi]
  rwa [Finset.sum_singleton] at hsum

theorem Distributed.mono (h : Distributed own F out) (hown : ∀ i ∈ own', i ∈ own ∧ F' i = F i) (hout : out ≤ out') :
    Distributed own' F' out' := by
  intro s hs
  rw [Finset.sum_congr rfl fun i hi => (hown i (hs i hi)).2]
  exact (h s fun i hi => (hown i (hs i hi)).1).trans hout

theorem distributed_empty : Distributed (∅ : Set ι) F out := by
  intro s hs
  rw [Finset.sum_eq_zero fun i hi => absurd (hs i hi) (Set.notMem_empty i)]
  exact Multiset.zero_le out

/-- GROW: one owner, old or new, gets no more than the tokens that come. -/
theorem Distributed.grow [DecidableEq ι] (h : Distributed own F out) (hother : ∀ i ∈ own', i ≠ o → i ∈ own ∧ F' i = F i)
    (ho : o ∈ own' → F' o ≤ new ∨ o ∈ own ∧ F' o ≤ new + F o) : Distributed own' F' (new + out) := by
  intro s hs
  by_cases hmem : o ∈ s
  · have hrest : ∑ i ∈ s.erase o, F' i = ∑ i ∈ s.erase o, F i := Finset.sum_congr rfl fun i hi =>
      (hother i (hs i (Finset.mem_of_mem_erase hi)) (Finset.ne_of_mem_erase hi)).2
    have hin : ∀ i ∈ s.erase o, i ∈ own := fun i hi =>
      (hother i (hs i (Finset.mem_of_mem_erase hi)) (Finset.ne_of_mem_erase hi)).1
    rw [← Finset.add_sum_erase s F' hmem, hrest]
    rcases ho (hs o hmem) with hle | ⟨hown, hle⟩
    · exact add_le_add hle (h _ hin)
    · have hall : F o + ∑ i ∈ s.erase o, F i ≤ out := by
        rw [Finset.add_sum_erase s F hmem]
        refine h s fun i hi => ?_
        rcases eq_or_ne i o with rfl | hne
        · exact hown
        · exact hin i (Finset.mem_erase.mpr ⟨hne, hi⟩)
      calc F' o + ∑ i ∈ s.erase o, F i ≤ new + F o + ∑ i ∈ s.erase o, F i := by gcongr
        _ = new + (F o + ∑ i ∈ s.erase o, F i) := add_assoc ..
        _ ≤ new + out := by gcongr
  · have hne : ∀ i ∈ s, i ≠ o := fun i hi heq => hmem (heq ▸ hi)
    rw [Finset.sum_congr rfl fun i hi => (hother i (hs i hi) (hne i hi)).2]
    exact (h s fun i hi => (hother i (hs i hi) (hne i hi)).1).trans (Multiset.le_add_left ..)

/-- TAKE: a share can be handed back; the other owners keep theirs. -/
theorem Distributed.take [DecidableEq ι] (h : Distributed own F out) (ho : o ∈ own)
    (hother : ∀ i ∈ own', i ≠ o ∧ i ∈ own ∧ F' i = F i) : ∃ left, out = F o + left ∧ Distributed own' F' left := by
  obtain ⟨left, rfl⟩ := Multiset.le_iff_exists_add.mp (h.le ho)
  refine ⟨left, rfl, fun s hs => ?_⟩
  have hnot : o ∉ s := fun hmem => (hother o (hs o hmem)).1 rfl
  have hall := h (insert o s) fun i hi => by
    rcases Finset.mem_insert.mp hi with rfl | hi
    · exact ho
    · exact (hother i (hs i hi)).2.1
  rw [Finset.sum_insert hnot] at hall
  rw [Finset.sum_congr rfl fun i hi => (hother i (hs i hi)).2.2]
  exact le_of_add_le_add_left hall

end Advos.Shares
