import Advos.Schemes.Run
import Advos.Vmem.Calls
import Advos.Vmem.Spans

/-! The list of the blocks of a space.

    `_block_insert` walks to the first block that starts behind the new one and compares the end of the
    new block with its start. The block in front of that place is not looked at:

        blocks      |---- b0 ----|          |-- b1 --|
        new               |--- n ---|                      accepted, though it overlaps b0

    With a start that lies in no block the list stays sorted and disjoint, and `_find_block` finds the
    one block that an address is in. -/

namespace Advos.Space
open Vmem List

variable {σ : Type}

/-- The address is in the range of the block at `b`, ends included. -/
def InRange (m : Mem) (b addr : ℕ) : Prop := m b ≤ addr ∧ addr ≤ m (b + 8)

/-- The blocks are sorted by their starts, and no address is in two of them. -/
structure InOrder (m : Mem) (bs : List ℕ) : Prop where
  sorted : bs.Pairwise fun b b' => m b ≤ m b'
  disjoint : bs.Pairwise fun b b' => ∀ x, ¬(InRange m b x ∧ InRange m b' x)

/-- The range from `start` to `fin` has an address of the block at `b`. -/
def Overlaps (m : Mem) (start fin b : ℕ) : Prop := ∃ x, start ≤ x ∧ x ≤ fin ∧ InRange m b x

/-- The start is in no block, or the range reaches the start of a later one. -/
def AddOk (m : Mem) (bs : List ℕ) (start fin : ℕ) : Prop :=
  (∀ b ∈ bs, ¬InRange m b start) ∨ ∃ b ∈ bs, start < m b ∧ m b ≤ fin

/-- A call of `virt_memory_block_add` that meets `ok`. -/
def AddStep (E : Env σ) (v : ℕ) (ok : Mem → List ℕ → ℕ → ℕ → Prop) (M M' : Machine σ) : Prop :=
  ∃ bs start fin n, Linked.Chain (nextBlock M.mem) (ptr (M.mem (v + 8))) bs ∧ start ≤ fin ∧
    ok M.mem bs start fin ∧ virtMemoryBlockAdd E v start fin M = .ok (n, M')

/-- The list of the blocks, each of which ends before the next one starts. -/
structure Blocks (v : ℕ) (live : σ → Set ℕ) (M : Machine σ) (bs : List ℕ) : Prop where
  chain : Linked.Chain (nextBlock M.mem) (ptr (M.mem (v + 8))) bs
  inUse : ∀ b ∈ bs, b ∈ live M.env
  proper : ∀ b ∈ bs, M.mem b ≤ M.mem (b + 8)
  order : bs.Pairwise fun b b' => M.mem (b + 8) < M.mem b'

section
variable {E : Env σ} {v : ℕ} {live : σ → Set ℕ} {M M' : Machine σ} {bs : List ℕ} {start fin n : ℕ}

theorem Blocks.inOrder (B : Blocks v live M bs) : InOrder M.mem bs := by
  refine ⟨B.order.imp_of_mem fun hb _ hlt => ?_, B.order.imp fun hlt x hx => ?_⟩
  · exact le_trans (B.proper _ hb) (le_of_lt hlt)
  · exact absurd (lt_of_le_of_lt hx.1.2 hlt) (not_lt.mpr hx.2.1)

theorem Blocks.length_lt (hE : Lawful E v live) (B : Blocks v live M bs) : bs.length < fuel :=
  length_lt_fuel B.chain.nodup fun b hb => ⟨(hE.node (B.inUse b hb)).pos, (hE.node (B.inUse b hb)).below⟩

theorem Blocks.grows (B : Blocks v live M bs) (h : Grows v live M M') :
    Blocks v live M' bs ∧ ∀ b ∈ bs, M'.mem b = M.mem b ∧ M'.mem (b + 8) = M.mem (b + 8) := by
  have hword : ∀ b ∈ bs, ∀ i < 64, M'.mem (b + i) = M.mem (b + i) := fun b hb =>
    h.mem b (B.inUse b hb) id
  have hends : ∀ b ∈ bs, M'.mem b = M.mem b ∧ M'.mem (b + 8) = M.mem (b + 8) := fun b hb =>
    ⟨hword b hb 0 (by decide), hword b hb 8 (by decide)⟩
  refine ⟨⟨?_, fun b hb => h.inUse b (B.inUse b hb) id, fun b hb => ?_, ?_⟩, hends⟩
  · rw [h.space 8 (by decide)]
    refine B.chain.congr fun b hb => ?_
    rw [nextBlock, nextBlock, hword b hb 16 (by decide)]
  · rw [(hends b hb).1, (hends b hb).2]
    exact B.proper b hb
  · refine B.order.imp_of_mem fun hb hb' hlt => ?_
    rw [(hends _ hb).2, (hends _ hb').1]
    exact hlt

/-! ### The call returns -/

theorem insertPoint_returns {m : Mem} {k c : ℕ} (hbs : Linked.Chain (nextBlock m) (ptr (m c)) bs)
    (hk : bs.length < k) : ∃ r, insertPoint m n k c = .ok r := by
  induction k generalizing c bs with
  | zero => exact absurd hk (Nat.not_lt_zero _)
  | succ k ih =>
    rw [insertPoint]
    split
    · exact ⟨_, rfl⟩
    · next hc0 =>
      split
      · split <;> exact ⟨_, rfl⟩
      · rw [ptr, if_neg hc0] at hbs
        obtain ⟨rest, rfl, hrest⟩ := hbs.pop
        exact ih hrest (Nat.lt_of_succ_lt_succ hk)

theorem Blocks.add_returns (hE : Lawful E v live) (B : Blocks v live M bs) (start fin : ℕ) :
    ∃ n M', virtMemoryBlockAdd E v start fin M = .ok (n, M') := by
  rw [virtMemoryBlockAdd]
  split
  · exact ⟨_, _, rfl⟩
  next n M1 halloc =>
  split
  · exact ⟨_, _, rfl⟩
  next fr M2 halloc' =>
  have htake : Takes v live M [fr, n] M2 := takes_trans (allocNode_spec hE halloc) (allocNode_spec hE halloc')
  obtain ⟨r, hr⟩ : ∃ r, insertPoint (setBlock M2.mem n fr start fin) n fuel (v + 8) = .ok r :=
    insertPoint_returns (setBlock_chain hE htake start fin B.chain B.inUse) (B.length_lt hE)
  dsimp only
  split
  · exact ⟨_, _, rfl⟩
  · rw [blockInsert, hr]
    cases r with
    | none => exact ⟨_, _, rfl⟩
    | some c => exact ⟨_, _, rfl⟩

/-! ### Insertion -/

theorem Blocks.no_overlap (B : Blocks v live M bs) {fr : ℕ} (h : Inserted v live M bs n fr start fin M')
    (hok : AddOk M.mem bs start fin) : ∃ pre post, bs = pre ++ post ∧
      Linked.Chain (nextBlock M'.mem) (ptr (M'.mem (v + 8))) (pre ++ n :: post) ∧
      (∀ b ∈ pre, M.mem (b + 8) < start) ∧ ∀ b ∈ post, fin < M.mem b := by
  obtain ⟨pre, post, rfl, hchain, hpre, hpost⟩ := h.chain
  obtain ⟨-, hpostOrder, -⟩ := pairwise_append.mp B.order
  -- what holds of the first later block holds of all of them
  have hbehind : ∀ b ∈ post, fin < M.mem b := by
    intro b hb
    cases post with
    | nil => cases hb
    | cons b' post =>
      obtain ⟨-, hfin⟩ := hpost b' rfl
      rcases mem_cons.mp hb with rfl | hb
      · exact hfin
      · have hlt := rel_of_pairwise_cons hpostOrder hb
        have hproper := B.proper b' (by simp)
        omega
  have hin : ∀ b ∈ pre ++ post, ¬InRange M.mem b start := by
    rcases hok with hin | ⟨b, hb, hstart, hfin⟩
    · exact hin
    · rcases mem_append.mp hb with hb | hb
      · exact absurd (hpre b hb) (not_le.mpr hstart)
      · exact absurd (hbehind b hb) (not_lt.mpr hfin)
  refine ⟨pre, post, rfl, hchain, fun b hb => ?_, hbehind⟩
  by_contra hle
  exact hin b (mem_append_left _ hb) ⟨hpre b hb, not_lt.mp hle⟩

theorem Blocks.insert (B : Blocks v live M bs) {fr : ℕ} (h : Inserted v live M bs n fr start fin M')
    (hle : start ≤ fin) (hok : AddOk M.mem bs start fin) : ∃ bs', Blocks v live M' bs' := by
  obtain ⟨pre, post, rfl, hchain, hpre, hpost⟩ := B.no_overlap h hok
  have hends : ∀ b ∈ pre ++ post, M'.mem b = M.mem b ∧ M'.mem (b + 8) = M.mem (b + 8) := fun b hb =>
    ⟨h.blocks b hb 0 (by decide) (by decide), h.blocks b hb 8 (by decide) (by decide)⟩
  have hold : (pre ++ post).Pairwise fun b b' => M'.mem (b + 8) < M'.mem b' := by
    refine B.order.imp_of_mem fun hb hb' hlt => ?_
    rw [(hends _ hb).2, (hends _ hb').1]
    exact hlt
  obtain ⟨hpreOrder, hpostOrder, hcross⟩ := pairwise_append.mp hold
  refine ⟨pre ++ n :: post, hchain, fun b hb => ?_, fun b hb => ?_, ?_⟩
  · rcases mem_append.mp hb with hb | hb
    · exact (h.inUse b (B.inUse b (mem_append_left _ hb))).1
    · rcases mem_cons.mp hb with rfl | hb
      · exact h.new.2
      · exact (h.inUse b (B.inUse b (mem_append_right _ hb))).1
  · have hkept : ∀ b ∈ pre ++ post, M'.mem b ≤ M'.mem (b + 8) := fun b hb => by
      rw [(hends b hb).1, (hends b hb).2]
      exact B.proper b hb
    rcases mem_append.mp hb with hb | hb
    · exact hkept b (mem_append_left _ hb)
    · rcases mem_cons.mp hb with rfl | hb
      · rw [h.range.1, h.range.2]
        exact hle
      · exact hkept b (mem_append_right _ hb)
  · refine pairwise_append.mpr ⟨hpreOrder, pairwise_cons.mpr ⟨fun b hb => ?_, hpostOrder⟩,
      fun b hb b' hb' => ?_⟩
    · rw [h.range.2, (hends b (mem_append_right _ hb)).1]
      exact hpost b hb
    · rcases mem_cons.mp hb' with rfl | hb'
      · rw [h.range.1, (hends b (mem_append_left _ hb)).2]
        exact hpre b hb
      · exact hcross b hb b' hb'

theorem Blocks.refuses (hE : Lawful E v live) (B : Blocks v live M bs) (hok : AddOk M.mem bs start fin)
    (hover : ∃ b ∈ bs, Overlaps M.mem start fin b)
    (h : virtMemoryBlockAdd E v start fin M = .ok (n, M')) : n = 0 := by
  by_contra hn
  obtain ⟨fr, hins⟩ := virtMemoryBlockAdd_inserted hE B.chain B.inUse h hn
  obtain ⟨pre, post, rfl, -, hpre, hpost⟩ := B.no_overlap hins hok
  obtain ⟨b, hb, x, hstart, hfin, hlo, hhi⟩ := hover
  rcases mem_append.mp hb with hb | hb
  · have := hpre b hb
    omega
  · have := hpost b hb
    omega

/-- STEP: a call under the condition. -/
theorem Blocks.step (hE : Lawful E v live) (B : ∃ bs, Blocks v live M bs) (h : AddStep E v AddOk M M') :
    ∃ bs, Blocks v live M' bs := by
  obtain ⟨bs, B⟩ := B
  obtain ⟨bs', start, fin, n, hchain, hle, hok, hadd⟩ := h
  obtain rfl := hchain.unique B.chain
  rcases eq_or_ne n 0 with rfl | hn
  · exact ⟨bs', (B.grows (virtMemoryBlockAdd_null hE hadd)).1⟩
  · obtain ⟨fr, hins⟩ := virtMemoryBlockAdd_inserted hE B.chain B.inUse hadd hn
    exact B.insert hins hle hok

theorem Blocks.find (hE : Lawful E v live) (B : Blocks v live M bs) (addr : ℕ) :
    ∃ r, findBlock v addr M.mem = .ok r ∧ ∀ b, r = some b ↔ b ∈ bs ∧ InRange M.mem b addr := by
  refine ⟨_, by rw [findBlock, B.chain.walk_eq (B.length_lt hE).le]; rfl, fun b => ⟨fun h => ?_, fun h => ?_⟩⟩
  · exact ⟨mem_of_find?_eq_some h, by simpa [InRange] using List.find?_some h⟩
  · obtain ⟨hb, hin⟩ := h
    cases hf : bs.find? fun b => decide (M.mem b ≤ addr ∧ addr ≤ M.mem (b + 8)) with
    | none => exact absurd hin (by simpa only [decide_eq_true_eq, InRange] using List.find?_eq_none.mp hf b hb)
    | some b' =>
      have hb' := mem_of_find?_eq_some hf
      have hin' : InRange M.mem b' addr := by simpa [InRange] using List.find?_some hf
      -- two blocks of the list do not share an address
      by_contra hne
      have hdis : ∀ x ∈ bs, ∀ y ∈ bs, x ≠ y → ¬(InRange M.mem x addr ∧ InRange M.mem y addr) := by
        have hsymm : Std.Symm fun x y => ¬(InRange M.mem x addr ∧ InRange M.mem y addr) :=
          ⟨fun _ _ h hxy => h ⟨hxy.2, hxy.1⟩⟩
        intro x hx y hy hxy
        exact (B.inOrder.disjoint.imp fun h => h addr).forall hx hy hxy
      exact hdis b' hb' b hb (fun heq => hne (by rw [heq])) ⟨hin', hin⟩

/-- RUN: in every run of calls whose ranges start in no block, or reach a later one. -/
theorem block_list_in_order (hE : Lawful E v live) {M₀ : Machine σ} (h0 : NewSpace v M₀)
    (hrun : Relation.ReflTransGen (AddStep E v AddOk) M₀ M) :
    ∃ bs, Linked.Chain (nextBlock M.mem) (ptr (M.mem (v + 8))) bs ∧ InOrder M.mem bs ∧
      (∀ start fin, start ≤ fin → AddOk M.mem bs start fin →
        ∃ n M', virtMemoryBlockAdd E v start fin M = .ok (n, M') ∧
          ((∃ b ∈ bs, Overlaps M.mem start fin b) → n = 0 ∧
            Linked.Chain (nextBlock M'.mem) (ptr (M'.mem (v + 8))) bs ∧
            ∀ b ∈ bs, M'.mem b = M.mem b ∧ M'.mem (b + 8) = M.mem (b + 8))) ∧
      ∀ addr, ∃ r, findBlock v addr M.mem = .ok r ∧ ∀ b, r = some b ↔ b ∈ bs ∧ InRange M.mem b addr := by
  have hempty : Blocks v live M₀ [] := by
    refine ⟨?_, by simp, by simp, List.Pairwise.nil⟩
    rw [Linked.chain_nil, h0, ptr, if_pos rfl]
  obtain ⟨bs, B⟩ := Run.invariant (P := fun M => ∃ bs, Blocks v live M bs) hrun ⟨[], hempty⟩
    fun _ _ hB hstep => Blocks.step hE hB hstep
  refine ⟨bs, B.chain, B.inOrder, fun start fin _ hok => ?_, B.find hE⟩
  obtain ⟨n, M', hadd⟩ := B.add_returns hE start fin
  refine ⟨n, M', hadd, fun hover => ?_⟩
  obtain rfl := B.refuses hE hok hover hadd
  obtain ⟨B', hends⟩ := B.grows (virtMemoryBlockAdd_null hE hadd)
  exact ⟨rfl, B'.chain, hends⟩

end

/-- The machine after a call of `virt_memory_block_add`. -/
def addedBlock (E : Env σ) (start fin : ℕ) (M : Machine σ) : Machine σ :=
  match virtMemoryBlockAdd E 0x1000 start fin M with
  | .ok r => r.2
  | .error _ => M

theorem addStep_added {E : Env σ} {ok : Mem → List ℕ → ℕ → ℕ → Prop} {M : Machine σ} {bs : List ℕ} {start fin n : ℕ}
    (hbs : Linked.Chain (nextBlock M.mem) (ptr (M.mem 0x1008)) bs) (hle : start ≤ fin) (hok : ok M.mem bs start fin)
    (h : (virtMemoryBlockAdd E 0x1000 start fin M).toOption.map Prod.fst = some n) :
    AddStep E 0x1000 ok M (addedBlock E start fin M) := by
  refine ⟨bs, start, fin, n, hbs, hle, hok, ?_⟩
  obtain ⟨M', hM⟩ := returned_fst h
  rw [addedBlock, hM]

/-- The space with one block, from 256 MiB to 512 MiB. -/
def firstBlock : Machine Supply := addedBlock supply 0x10000000 0x1fffffff blank

theorem firstBlock_chain : Linked.Chain (nextBlock firstBlock.mem) (ptr (firstBlock.mem 0x1008)) [0x10000] := by
  decide +kernel

theorem firstBlock_range : firstBlock.mem 0x10000 = 0x10000000 ∧ firstBlock.mem 0x10008 = 0x1fffffff := by
  decide +kernel

theorem firstBlock_step (ok : Mem → List ℕ → ℕ → ℕ → Prop) (hok : ok blank.mem [] 0x10000000 0x1fffffff) :
    AddStep supply 0x1000 ok blank firstBlock := by
  have hnone : Linked.Chain (nextBlock blank.mem) (ptr (blank.mem 0x1008)) [] := by decide +kernel
  exact addStep_added (n := 0x10000) hnone (by decide) hok (by decide +kernel)

/-- A second block in front of the first: the two stay in order. -/
theorem block_list_in_order_two : ∃ M bs, Relation.ReflTransGen (AddStep supply 0x1000 AddOk) blank M ∧
    Linked.Chain (nextBlock M.mem) (ptr (M.mem 0x1008)) bs ∧ InOrder M.mem bs := by
  have hrun : Relation.ReflTransGen (AddStep supply 0x1000 AddOk) blank
      (addedBlock supply 0x8000000 0xfffffff firstBlock) := by
    refine .tail (.single (firstBlock_step AddOk (.inl (by simp)))) ?_
    refine addStep_added (n := 0x10080) firstBlock_chain (by decide) (.inl fun b hb hin => ?_) (by decide +kernel)
    obtain rfl := List.mem_singleton.mp hb
    exact absurd hin.1 (by rw [firstBlock_range.1]; decide)
  obtain ⟨bs, hbs, hord, -⟩ := block_list_in_order supply_lawful (rfl : NewSpace 0x1000 blank) hrun
  exact ⟨_, bs, hrun, hbs, hord⟩

/-- A range inside the first block is added behind it, and one address is in two blocks. -/
theorem block_added_inside : ∃ M, Relation.ReflTransGen (AddStep supply 0x1000 fun _ _ _ _ => True) blank M ∧
    ∃ bs, Linked.Chain (nextBlock M.mem) (ptr (M.mem 0x1008)) bs ∧ ¬InOrder M.mem bs := by
  have hrun : Relation.ReflTransGen (AddStep supply 0x1000 fun _ _ _ _ => True) blank
      (addedBlock supply 0x18000000 0x18ffffff firstBlock) :=
    .tail (.single (firstBlock_step _ trivial))
      (addStep_added (n := 0x10080) firstBlock_chain (by decide) trivial (by decide +kernel))
  have hhead : ptr ((addedBlock supply 0x18000000 0x18ffffff firstBlock).mem 0x1008) = some 0x10000 := by
    decide +kernel
  have hnext : nextBlock (addedBlock supply 0x18000000 0x18ffffff firstBlock).mem 0x10000 = some 0x10080 := by
    decide +kernel
  have hlast : nextBlock (addedBlock supply 0x18000000 0x18ffffff firstBlock).mem 0x10080 = none := by
    decide +kernel
  refine ⟨_, hrun, [0x10000, 0x10080], ?_, fun hord => ?_⟩
  · rw [hhead, Linked.chain_cons, hnext, Linked.chain_cons, hlast, Linked.chain_nil]
    exact ⟨rfl, rfl, rfl⟩
  · refine List.rel_of_pairwise_cons hord.disjoint (List.mem_singleton_self _) 0x18000000 ⟨⟨?_, ?_⟩, ?_, ?_⟩ <;>
      decide +kernel

end Advos.Space
