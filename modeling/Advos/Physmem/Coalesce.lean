import Advos.Physmem.Lists
import Advos.Schemes.Dyadic

/-! Merging keeps the free lists coalesced.

    Between calls no block stands beside its free buddy. Inserting one block can create at most one
    such pair, so the loop of `_merge_buddy` merges once (`mergeLoop_pair`) or not at all
    (`mergeLoop_noBuddies`), and the merged block is an insertion at the next order. -/

namespace Advos.Physmem
open Word Tiling Function List

/-- No block of the list has its buddy in the list. -/
def NoBuddies (k : ℕ) (l : List ℕ) : Prop :=
  ∀ a ∈ l, blockSize (k + 1) ∣ a → a + blockSize k ∉ l

/-- No two buddies of an order below the largest are both free. -/
def Coalesced (b : Buddy) : Prop := ∀ k, k < buddyOrder → NoBuddies k (b k)

theorem NoBuddies.sublist {k : ℕ} {l l' : List ℕ} (h : NoBuddies k l) (hs : l'.Sublist l) :
    NoBuddies k l' :=
  fun a ha hal hmem => h a (hs.subset ha) hal (hs.subset hmem)

theorem NoBuddies.nil (k : ℕ) : NoBuddies k [] := fun a ha => by simp at ha

theorem NoBuddies.singleton (k a : ℕ) : NoBuddies k [a] := by
  intro c hc _ hmem
  have := blockSize_pos k
  simp only [mem_singleton] at hc hmem
  omega

variable {b : Buddy} {l : List ℕ}

theorem Coalesced.update (h : Coalesced b) {k : ℕ} (hl : k < buddyOrder → NoBuddies k l) :
    Coalesced (update b k l) := by
  intro j hj
  by_cases hjk : j = k
  · subst hjk; rw [update_self]; exact hl hj
  · rw [update_of_ne hjk]; exact h j hj

/-! ### The merge loop -/

section MergeLoop

variable {order : ℕ} {f : Buddy → ℕ → Buddy}

theorem mergeLoop_noBuddies (b : Buddy) : ∀ (l pre : List ℕ), (∀ a ∈ l, a + blockSize order < 2 ^ 64) →
    NoBuddies order l → mergeLoop order f pre l b = b
  | [], _, _, _ => rfl
  | [_], _, _, _ => rfl
  | block :: next :: rest, pre, hlt, hno => by
      have hbud : ¬ isBuddy order block next = true := by
        rw [isBuddy_iff, add64_of_lt (hlt block (by simp))]
        rintro ⟨hal, rfl⟩
        exact hno block (by simp) hal (by simp)
      rw [mergeLoop, if_neg hbud]
      exact mergeLoop_noBuddies b (next :: rest) _ (fun a ha => hlt a (mem_cons_of_mem _ ha))
        (hno.sublist (sublist_cons_self _ _))

/-- With one pair of buddies `a`, `a + blockSize` in the list the loop takes the pair out, inserts
    the merged block at the upper order and changes nothing after that. -/
theorem mergeLoop_pair {a : ℕ} {post : List ℕ} (b : Buddy) (hal : blockSize (order + 1) ∣ a) :
    ∀ (mid pre : List ℕ),
      (∀ c ∈ mid ++ a :: (a + blockSize order) :: post, c + blockSize order < 2 ^ 64) →
      (∀ c ∈ mid ++ a :: (a + blockSize order) :: post, blockSize (order + 1) ∣ c →
        c + blockSize order ∈ mid ++ a :: (a + blockSize order) :: post → c = a) →
      a ∉ mid → a ∉ post →
      mergeLoop order f pre (mid ++ a :: (a + blockSize order) :: post) b =
        f (update b order (pre ++ mid ++ post)) a
  | [], pre, hlt, huniq, _, hpost => by
      have hbud : isBuddy order a (a + blockSize order) = true := by
        rw [isBuddy_iff, add64_of_lt (hlt a (by simp))]; exact ⟨hal, rfl⟩
      rw [nil_append, mergeLoop, if_pos hbud, append_nil]
      cases post with
      | nil => rfl
      | cons skipped rest =>
        simp only
        refine mergeLoop_noBuddies _ rest _ (fun c hc => hlt c (by simp [hc])) ?_
        intro c hc hcal hmem
        have hca : c = a := huniq c (by simp [hc]) hcal (by simp [hmem])
        exact hpost (by rw [← hca]; simp [hc])
  | c :: mid, pre, hlt, huniq, hmid, hpost => by
      have hca : c ≠ a := fun h => hmid (by simp [h])
      have step : ∀ next rest, mid ++ a :: (a + blockSize order) :: post = next :: rest →
          mergeLoop order f pre (c :: next :: rest) b =
            mergeLoop order f (pre ++ [c]) (next :: rest) b := by
        intro next rest heq
        have hbud : ¬ isBuddy order c next = true := by
          rw [isBuddy_iff, add64_of_lt (hlt c (by simp))]
          rintro ⟨hcal, rfl⟩
          exact hca (huniq c (by simp) hcal (by rw [cons_append, heq]; simp))
        rw [mergeLoop, if_neg hbud]
      have ih := mergeLoop_pair b hal mid (pre ++ [c])
        (fun e he => hlt e (mem_cons_of_mem _ he))
        (fun e he hd hm => huniq e (mem_cons_of_mem _ he) hd (mem_cons_of_mem _ hm))
        (fun h => hmid (mem_cons_of_mem _ h)) hpost
      rw [cons_append]
      cases heq : mid ++ a :: (a + blockSize order) :: post with
      | nil => simp at heq
      | cons next rest =>
        rw [step next rest heq, ← heq, ih]
        simp only [append_assoc, cons_append, nil_append]

end MergeLoop

/-- Two neighbours at block distance in a sorted list of aligned addresses stand side by side. -/
theorem exists_adjacent {k a : ℕ} (hs : l.Pairwise (· < ·)) (hal : ∀ c ∈ l, blockSize k ∣ c) (ha : a ∈ l)
    (ha' : a + blockSize k ∈ l) :
    ∃ mid post, l = mid ++ a :: (a + blockSize k) :: post := by
  obtain ⟨mid, tl, rfl⟩ := append_of_mem ha
  have hpos := blockSize_pos k
  obtain ⟨-, htl, hcross⟩ := pairwise_append.mp hs
  have hmem : a + blockSize k ∈ tl := by
    rcases mem_append.mp ha' with h | h
    · have := hcross _ h a (by simp); omega
    · rcases mem_cons.mp h with h | h
      · omega
      · exact h
  cases tl with
  | nil => simp at hmem
  | cons next post =>
    obtain ⟨hnext, htl'⟩ := pairwise_cons.mp htl
    rcases mem_cons.mp hmem with rfl | hlater
    · exact ⟨mid, post, rfl⟩
    · -- an aligned address strictly between `a` and `a + blockSize`
      exfalso
      have h1 := hnext next (by simp)
      have h2 := (pairwise_cons.mp htl').1 _ hlater
      obtain ⟨i, hi⟩ := hal a (by simp)
      obtain ⟨j, hj⟩ := hal next (by simp)
      rw [hi, hj] at h1
      rw [hi, hj, ← Nat.mul_succ] at h2
      have hij := Nat.lt_of_mul_lt_mul_left h1
      have hji := Nat.lt_of_mul_lt_mul_left h2
      omega

/-! ### Insertion -/

theorem not_aligned_add {k a : ℕ} (h : blockSize (k + 1) ∣ a) :
    ¬ blockSize (k + 1) ∣ a + blockSize k := by
  intro h'
  have hd := (Nat.dvd_add_right h).mp h'
  rw [blockSize_succ] at hd
  have := Nat.le_of_dvd (blockSize_pos k) hd
  have := blockSize_pos k
  omega

variable {k addr : ℕ}

/-- In a list without buddies one more block makes at most one pair, around that block. -/
theorem pair_of_insert (h0 : addr ≠ 0) (hno : NoBuddies k l) {c : ℕ} (hc : c ∈ insertSorted addr l)
    (hcal : blockSize (k + 1) ∣ c) (hmem : c + blockSize k ∈ insertSorted addr l) :
    (c = addr ∧ addr + blockSize k ∈ l) ∨ (c ∈ l ∧ addr = c + blockSize k) := by
  have hpos := blockSize_pos k
  rcases (mem_insertSorted h0).mp hc with rfl | hc
  · rcases (mem_insertSorted h0).mp hmem with h | h
    · omega
    · exact Or.inl ⟨rfl, h⟩
  · rcases (mem_insertSorted h0).mp hmem with h | h
    · exact Or.inr ⟨hc, h.symm⟩
    · exact absurd h (hno c hc hcal)

theorem pair_unique (h0 : addr ≠ 0) (hno : NoBuddies k l) {c par : ℕ} (hc : c ∈ insertSorted addr l)
    (hcal : blockSize (k + 1) ∣ c) (hmem : c + blockSize k ∈ insertSorted addr l)
    (hpar : par ∈ insertSorted addr l) (hpal : blockSize (k + 1) ∣ par)
    (hpar' : par + blockSize k ∈ insertSorted addr l) : c = par := by
  rcases pair_of_insert h0 hno hc hcal hmem with ⟨rfl, -⟩ | ⟨-, h2⟩
  · rcases pair_of_insert h0 hno hpar hpal hpar' with ⟨h3, -⟩ | ⟨-, h4⟩
    · exact h3.symm
    · rw [h4] at hcal; exact absurd hcal (not_aligned_add hpal)
  · rcases pair_of_insert h0 hno hpar hpal hpar' with ⟨h3, -⟩ | ⟨-, h4⟩
    · rw [h3, h2] at hpal; exact absurd hpal (not_aligned_add hcal)
    · omega

theorem addBlock_self (b : Buddy) (k addr : ℕ) : addBlock b k addr k = insertSorted addr (b k) := by
  rw [addBlock, update_self]

theorem addBlock_count (hk : k ≤ buddyOrder) (h0 : addr ≠ 0) (x : ℕ) :
    freeCount (addBlock b k addr) x = freeCount b x + pageIn addr k x := by
  have h1 := freeCount_update (b := b) hk (insertSorted addr (b k)) x
  rw [listCount_perm (insertSorted_perm h0 (b k)), listCount_cons] at h1
  rw [addBlock]; omega

/-- The order-`k` list with a pair of buddies taken out, and the pages that go with it. -/
theorem pair_out_count {k addr par : ℕ} {mid post : List ℕ} (hk : k ≤ buddyOrder) (h0 : addr ≠ 0)
    (hl : insertSorted addr (b k) = mid ++ par :: (par + blockSize k) :: post) (x : ℕ) :
    freeCount (update b k (mid ++ post)) x + pageIn par (k + 1) x =
      freeCount b x + pageIn addr k x := by
  have hperm : (mid ++ par :: (par + blockSize k) :: post).Perm
      (par :: (par + blockSize k) :: (mid ++ post)) :=
    perm_middle.trans (perm_middle.cons _)
  have h1 := freeCount_update (b := b) hk (mid ++ post) x
  have h2 : listCount k (insertSorted addr (b k)) x = listCount k (b k) x + pageIn addr k x := by
    rw [listCount_perm (insertSorted_perm h0 (b k)), listCount_cons]
  rw [hl, listCount_perm hperm, listCount_cons, listCount_cons] at h2
  rw [pageIn_split]
  omega

/-- A block whose pages are not free goes into the lists: they stay sound and coalesced, and exactly
    its pages become free. -/
theorem insertBuddy_spec : ∀ {d : ℕ} {b : Buddy} {addr order : ℕ}, order + d = buddyOrder + 1 →
    order ≤ buddyOrder → Sound b → Coalesced b → addr ≠ 0 → blockSize order ∣ addr →
    addr + blockSize order ≤ memEnd → (∀ x, freeCount b x + pageIn addr order x ≤ 1) →
    Sound (insertBuddy d b addr order) ∧ Coalesced (insertBuddy d b addr order) ∧
      ∀ x, freeCount (insertBuddy d b addr order) x = freeCount b x + pageIn addr order x
  | 0, _, _, order, ho, hle, _, _, _, _, _, _ => by omega
  | d + 1, b, addr, order, ho, hle, hS, hC, h0, hal, hbd, hcnt => by
      have hend : memEnd < 2 ^ 64 := by decide
      have hlist : ListOk order (insertSorted addr (b order)) := (hS.list order).insert h0 hal hbd
      have hins : Sound (addBlock b order addr) :=
        hS.update hle hlist fun x => by
          have := addBlock_count (b := b) hle h0 x
          rw [addBlock] at this; rw [this]; exact hcnt x
      simp only [insertBuddy, addBlock_self]
      by_cases htop : order ≥ buddyOrder
      · rw [if_pos htop]
        exact ⟨hins, hC.update fun h => absurd h (by omega), addBlock_count hle h0⟩
      rw [if_neg htop]
      have hlt : ∀ a ∈ insertSorted addr (b order), a + blockSize order < 2 ^ 64 := fun a ha =>
        lt_of_le_of_lt (hlist.bound a ha) hend
      have hno := hC order (by omega)
      by_cases hpair : ∃ c ∈ insertSorted addr (b order), blockSize (order + 1) ∣ c ∧
          c + blockSize order ∈ insertSorted addr (b order)
      · -- one pair: it is replaced by the block of the upper order
        obtain ⟨par, hpar, hpal, hpar'⟩ := hpair
        have huniq : ∀ c ∈ insertSorted addr (b order), blockSize (order + 1) ∣ c →
            c + blockSize order ∈ insertSorted addr (b order) → c = par := fun c hc hcal hmem =>
          pair_unique h0 hno hc hcal hmem hpar hpal hpar'
        have hstrict := hins.strict order
        rw [addBlock_self] at hstrict
        obtain ⟨mid, post, hl⟩ := exists_adjacent hstrict hlist.aligned hpar hpar'
        have hmidpost : par ∉ mid ∧ par ∉ post := by
          rw [hl] at hstrict
          obtain ⟨-, htl, hcross⟩ := pairwise_append.mp hstrict
          refine ⟨fun h => lt_irrefl _ (hcross par h par (by simp)), fun h => ?_⟩
          exact lt_irrefl _ ((pairwise_cons.mp htl).1 par (mem_cons_of_mem _ h))
        have hsub : (mid ++ post).Sublist (insertSorted addr (b order)) := by
          rw [hl]
          exact (List.Sublist.refl mid).append
            ((sublist_cons_self _ _).trans (sublist_cons_self _ _))
        have hloop := mergeLoop_pair (f := fun b block => insertBuddy d b block (order + 1))
          (addBlock b order addr) hpal mid [] (by rw [← hl]; exact hlt)
          (by rw [← hl]; exact huniq) hmidpost.1 hmidpost.2
        have hout := pair_out_count hle h0 hl
        rw [hl, hloop, nil_append, addBlock, update_idem]
        -- the lists with the pair taken out, ready for the insertion at the next order
        have hS' : Sound (update b order (mid ++ post)) :=
          hS.update hle (hlist.sublist hsub) fun x => by
            have := hout x; have := hcnt x; omega
        have hC' : Coalesced (update b order (mid ++ post)) := by
          refine hC.update fun _ c hc hcal hmem => ?_
          rw [huniq c (hsub.subset hc) hcal (hsub.subset hmem)] at hc
          exact (mem_append.mp hc).elim hmidpost.1 hmidpost.2
        have hend' : par + blockSize (order + 1) ≤ memEnd := by
          have := hlist.bound _ hpar'
          rw [blockSize_succ]; omega
        have hpar0 : par ≠ 0 := by rintro rfl; exact hlist.nonzero hpar
        obtain ⟨r1, r2, r3⟩ := insertBuddy_spec (d := d) (by omega) (by omega) hS' hC' hpar0 hpal
          hend' fun x => by rw [hout]; exact hcnt x
        exact ⟨r1, r2, fun x => by rw [r3, hout]⟩
      · -- no pair: the loop walks the list and changes nothing
        have hnb : NoBuddies order (insertSorted addr (b order)) :=
          fun c hc hcal hmem => hpair ⟨c, hc, hcal, hmem⟩
        rw [mergeLoop_noBuddies _ _ _ hlt hnb]
        exact ⟨hins, hC.update fun _ => hnb, addBlock_count hle h0⟩

theorem free_spec {ptr order : ℕ} (ho : order ≤ buddyOrder) (hS : Sound b) (hC : Coalesced b) (h0 : ptr ≠ 0)
    (hal : blockSize order ∣ ptr) (hbd : ptr + blockSize order ≤ memEnd)
    (hcnt : ∀ x, freeCount b x + pageIn ptr order x ≤ 1) :
    Sound (physMemBuddyFree b ptr order) ∧ Coalesced (physMemBuddyFree b ptr order) ∧
      ∀ x, freeCount (physMemBuddyFree b ptr order) x = freeCount b x + pageIn ptr order x :=
  insertBuddy_spec (by omega) ho hS hC h0 hal hbd hcnt

/-! ### Allocation -/

/-- After splitting every list is free of buddies once the block to hand out has left its own. -/
theorem splitBuddy_coalesced : ∀ (d : ℕ) (b : Buddy) (order : ℕ), order + d = buddyOrder →
    Coalesced b → ∀ k, k < buddyOrder →
      NoBuddies k (if k = order then (splitBuddy d b order k).tail else splitBuddy d b order k)
  | 0, b, order, ho, hC => fun k hk => by
      rw [if_neg (by omega)]; exact hC k hk
  | d + 1, b, order, ho, hC => fun k hk => by
      simp only [splitBuddy]
      by_cases hne : b order ≠ []
      · rw [if_pos hne]
        split
        · exact (hC k hk).sublist (tail_sublist _)
        · exact hC k hk
      rw [if_neg hne]
      have ih := splitBuddy_coalesced d b (order + 1) (by omega) hC
      cases hup : splitBuddy d b (order + 1) (order + 1) with
      | nil =>
        simp only
        have hk' := ih k hk
        by_cases h1 : k = order + 1
        · subst h1; rw [if_neg (by omega), hup]; exact NoBuddies.nil _
        · rw [if_neg h1] at hk'
          split
          · exact hk'.sublist (tail_sublist _)
          · exact hk'
      | cons block rest =>
        simp only
        by_cases h1 : k = order
        · subst h1
          rw [if_pos rfl, update_self, link]
          split
          · exact NoBuddies.nil _
          · rw [tail_cons, link]
            split
            · exact NoBuddies.nil _
            · exact NoBuddies.singleton _ _
        · rw [if_neg h1, update_of_ne h1]
          have hk' := ih k hk
          by_cases h2 : k = order + 1
          · subst h2
            rw [if_pos rfl, hup, tail_cons] at hk'
            rwa [update_self]
          · rw [if_neg h2] at hk'
            rwa [update_of_ne h2]

theorem alloc_coalesced (hC : Coalesced b) {order : ℕ} (ho : order ≤ buddyOrder) :
    Coalesced (physMemBuddyAlloc b order).2 := by
  have hsplit := splitBuddy_coalesced (buddyOrder - order) b order (by omega) hC
  unfold physMemBuddyAlloc
  rw [if_neg (by omega)]
  simp only
  cases hsp : splitBuddy (buddyOrder - order) b order order with
  | nil =>
    intro k hk
    have := hsplit k hk
    by_cases h : k = order
    · subst h; simp only [hsp]; exact NoBuddies.nil _
    · rwa [if_neg h] at this
  | cons block rest =>
    intro k hk
    have := hsplit k hk
    by_cases h : k = order
    · subst h
      rw [if_pos rfl, hsp, tail_cons] at this
      simp only [update_self]
      exact this
    · rw [if_neg h] at this
      simp only [update_of_ne h]
      exact this

end Advos.Physmem
