import Advos.Schemes.Arc
import Advos.Schemes.Run
import Advos.Vmem.BlockOps
import Advos.Vmem.Laws

/-! Carving an entry out of a free interval.

    The branches of the split leave over what is right when the entry is at an end of the interval,
    or has no pages. Strictly inside, the first part is too long:

        free        |------------- f -------------|
        allocated        |---- e ----|
        left over   |----- f0 -------|---- f1 ----|        f0 overlaps e                        -/

namespace Advos.Vmem
open SearchTree Word Arc Tiling List

/-! ### What is left over -/

/-- The range `e` is in `f` and touches an end of it, or is empty. -/
def AtEdge (f e : ℕ × ℕ) : Prop :=
  sub64 e.1 f.1 + e.2 ≤ f.2 ∧ (f.1 = e.1 ∨ add64 f.1 f.2 = add64 e.1 e.2 ∨ e.2 = 0)

instance (f e : ℕ × ℕ) : Decidable (AtEdge f e) := inferInstanceAs (Decidable (_ ∧ _))

/-- Start and size are words. -/
def IsSpan (a : ℕ × ℕ) : Prop := a.1 < 2 ^ 64 ∧ a.2 < 2 ^ 64

theorem sub64_add_sub64 {s n k : ℕ} (hs : s < 2 ^ 64) (hn : n < 2 ^ 64) (hk : k < 2 ^ 64)
    (h : sub64 n s ≤ k) : sub64 (add64 s k) n = k - sub64 n s := by
  simp only [sub64, add64] at h ⊢
  omega

theorem add64_sub64 {s n : ℕ} (hs : s < 2 ^ 64) (hn : n < 2 ^ 64) : add64 s (sub64 n s) = n := by
  simp only [sub64, add64]
  omega

/-- An entry at an end of a free interval and what is left over are the interval. -/
theorem cover_rest {f e : ℕ × ℕ} (hf : IsSpan f) (he : IsSpan e) (h : AtEdge f e) (x : ℕ) :
    cover arc (e :: rest f e) x = if arc f x then 1 else 0 := by
  obtain ⟨fs, fz⟩ := f
  obtain ⟨es, ez⟩ := e
  obtain ⟨⟨hfs, hfz⟩, ⟨hes, hez⟩⟩ := And.intro hf he
  obtain ⟨hin, hedge⟩ := h
  simp only at hfs hfz hes hez hin hedge
  have hle : ez ≤ fz := by omega
  have hsub : sub64 fz ez = fz - ez := sub64_of_le hle hfz
  rw [rest]
  split
  · next heq =>
    obtain ⟨rfl, rfl⟩ : fs = es ∧ fz = ez := heq
    simp
  split
  · next _ heq =>
    obtain rfl : fs = es := heq
    have hsplit := arc_split (x := x) (k := fz - ez) hfs (n := ez) (by omega)
    rw [Nat.add_sub_cancel' hle] at hsplit
    simp only [cover_cons, cover_nil, hsub]
    omega
  split
  · next _ _ hend =>
    have hstart : es = add64 fs (fz - ez) := by
      simp only [add64] at hend ⊢
      omega
    have hsplit := arc_split (x := x) (k := ez) hfs (n := fz - ez) (by omega)
    rw [Nat.sub_add_cancel hle, ← hstart] at hsplit
    simp only [cover_cons, cover_nil, hsub]
    omega
  · next _ hne hend =>
    -- the last branch: the entry is empty
    have hez0 : ez = 0 := by
      rcases hedge with h | h | h
      · exact absurd h hne
      · exact absurd h hend
      · exact h
    subst hez0
    have hadd : add64 es 0 = es := Nat.mod_eq_of_lt hes
    have hsplit := arc_split (x := x) (k := fz - sub64 es fs) hfs (n := sub64 es fs) (by omega)
    rw [Nat.add_sub_cancel' (by omega), add64_sub64 hfs hes] at hsplit
    simp only [cover_cons, cover_nil, hadd, sub64_add_sub64 hfs hes hfz (by omega), arc_empty]
    simp only [Bool.false_eq_true, if_false]
    omega

theorem rest_tail {f e r0 r1 : ℕ × ℕ} {tail : List (ℕ × ℕ)} (h : rest f e = r0 :: r1 :: tail) : tail = [] := by
  rw [rest] at h
  split at h
  · cases h
  split at h
  · cases h
  split at h
  · cases h
  · simp only [List.cons.injEq] at h
    exact h.2.2.symm

variable {f e r : ℕ × ℕ}

theorem mem_rest (h : r ∈ rest f e) :
    r = (add64 f.1 e.2, sub64 f.2 e.2) ∨ r = (f.1, sub64 f.2 e.2) ∨ r = (f.1, sub64 (add64 e.1 e.2) f.1) ∨
      r = (add64 e.1 e.2, sub64 (add64 f.1 f.2) (add64 e.1 e.2)) := by
  rw [rest] at h
  split_ifs at h
  · cases h
  · exact .inl (mem_singleton.mp h)
  · exact .inr (.inl (mem_singleton.mp h))
  · exact .inr (.inr (mem_pair.mp h))

theorem rest_isSpan (hf : IsSpan f) (h : r ∈ rest f e) : IsSpan r := by
  rcases mem_rest h with rfl | rfl | rfl | rfl
  · exact ⟨add64_lt .., sub64_lt ..⟩
  · exact ⟨hf.1, sub64_lt ..⟩
  · exact ⟨hf.1, sub64_lt ..⟩
  · exact ⟨add64_lt .., sub64_lt ..⟩

/-- Start and size are whole pages. -/
def Paged (a : ℕ × ℕ) : Prop := 4096 ∣ a.1 ∧ 4096 ∣ a.2

theorem dvd_add64 {s n : ℕ} (hs : 4096 ∣ s) (hn : 4096 ∣ n) : 4096 ∣ add64 s n := by
  unfold add64
  omega

theorem dvd_sub64 {s n : ℕ} (hs : 4096 ∣ s) (hn : 4096 ∣ n) : 4096 ∣ sub64 s n := by
  unfold sub64
  omega

theorem rest_paged (hf : Paged f) (he : Paged e) (h : r ∈ rest f e) : Paged r := by
  obtain ⟨⟨hf1, hf2⟩, ⟨he1, he2⟩⟩ := And.intro hf he
  rcases mem_rest h with rfl | rfl | rfl | rfl
  · exact ⟨dvd_add64 hf1 he2, dvd_sub64 hf2 he2⟩
  · exact ⟨hf1, dvd_sub64 hf2 he2⟩
  · exact ⟨hf1, dvd_sub64 (dvd_add64 he1 he2) hf1⟩
  · exact ⟨dvd_add64 he1 he2, dvd_sub64 (dvd_add64 hf1 hf2) (dvd_add64 he1 he2)⟩

/-! ### What the operations keep -/

/-- The first `k` bytes of the structures in `S` are as they were. -/
def Kept (k : ℕ) (S : List ℕ) (m m' : Mem) : Prop := ∀ s ∈ S, ∀ i < k, m' (s + i) = m (s + i)

section Kept
variable {k : ℕ} {S S' : List ℕ} {m m' m'' : Mem}

namespace Kept
variable (h : Kept k S m m')
include h

theorem trans (h' : Kept k S m' m'') : Kept k S m m'' :=
  fun s hs i hi => (h' s hs i hi).trans (h s hs i hi)

theorem subset (hs : ∀ s ∈ S', s ∈ S) : Kept k S' m m' :=
  fun s hs' => h s (hs s hs')

theorem mono {k' : ℕ} (hk : k' ≤ k) : Kept k' S m m' :=
  fun s hs i hi => h s hs i (by omega)

theorem span_eq (hk : 8 < k) {s : ℕ} (hs : s ∈ S) : span m' s = span m s :=
  Prod.ext (h s hs 0 (by omega)) (h s hs 8 hk)

theorem map_span (hk : 8 < k) : S.map (span m') = S.map (span m) :=
  map_congr_left fun _ hs => h.span_eq hk hs

end Kept

end Kept

section Moves
variable {σ : Type} {E : Env σ} {v b k : ℕ} {live : σ → Set ℕ} {W W' : ℕ → Prop} {M M₁ M' : Machine σ}
  {S A A' Q Q' : List ℕ} {m' : Mem}

/-- A tree operation has written to the nodes of `S`, from their byte `k` on, and to the pointers of `b`. -/
structure Edits (v : ℕ) (live : σ → Set ℕ) (b k : ℕ) (S : List ℕ) (M : Machine σ) (m' : Mem) : Prop where
  kept : ∀ p ∈ live M.env, p ≠ b → ∀ i < k, m' (p + i) = M.mem (p + i)
  head : ∀ i < 24, m' (b + i) = M.mem (b + i)
  within : Within v live (fun p => p = b ∨ p ∈ S) M { M with mem := m' }
  wide : 16 ≤ k

theorem edits_of_frame (hE : Lawful E v live) (hb : b ∈ live M.env) (hS : ∀ s ∈ S, s ∈ live M.env ∧ s ≠ b)
    (hk : 16 ≤ k ∧ k ≤ 40)
    (h : ∀ a, (a < b + 24 ∨ b + 64 ≤ a) → (∀ s ∈ S, a < s + k ∨ s + 64 ≤ a) → m' a = M.mem a) :
    Edits v live b k S M m' := by
  have hnode : ∀ s ∈ S, NodeAt v s := fun s hs => hE.node (hS s hs).1
  have hword : ∀ p ∈ live M.env, p ≠ b → ∀ i < 64, (p ∈ S → i < k) → m' (p + i) = M.mem (p + i) := by
    intro p hp hpb i hi hpS
    refine h _ ?_ fun s hs => ?_
    · rcases (hE.node hp).apart (hE.node hb) hpb with h | h <;> omega
    · rcases eq_or_ne p s with rfl | hne
      · have := hpS hs
        omega
      · rcases (hE.node hp).apart (hnode s hs) hne with h | h <;> omega
  refine ⟨fun p hp hpb i hi => hword p hp hpb i (by omega) fun _ => hi, fun i hi => ?_,
    within_mem (fun p hp hn i hi => ?_) fun i hi => ?_, hk.1⟩
  · refine h _ (by omega) fun s hs => ?_
    rcases (hnode s hs).apart (hE.node hb) (hS s hs).2 with h | h <;> omega
  · rw [not_or] at hn
    exact hword p hp hn.1 i hi fun hpS => absurd hpS hn.2
  · refine h _ ?_ fun s hs => ?_
    · rcases (hE.node hb).space with h | h <;> omega
    · rcases (hnode s hs).space with h | h <;> omega

theorem FreeFrame.edits (h : FreeFrame b S M.mem m') (hE : Lawful E v live) (hb : b ∈ live M.env)
    (hS : ∀ s ∈ S, s ∈ live M.env ∧ s ≠ b) : Edits v live b 16 S M m' :=
  edits_of_frame hE hb hS (by decide) fun a ha hS => h a (by omega) (by omega) hS

theorem EntryFrame.edits (h : EntryFrame b S M.mem m') (hE : Lawful E v live) (hb : b ∈ live M.env)
    (hS : ∀ s ∈ S, s ∈ live M.env ∧ s ≠ b) : Edits v live b 40 S M m' :=
  edits_of_frame hE hb hS (by decide) fun a ha hS => h a (by omega) hS

theorem Edits.span_eq (h : Edits v live b k S M m') {p : ℕ} (hp : p ∈ live M.env) (hpb : p ≠ b) :
    span m' p = span M.mem p := by
  have hwide := h.wide
  exact Prod.ext (h.kept p hp hpb 0 (by omega)) (h.kept p hp hpb 8 (by omega))

/-- A part of a call has touched the block `b` and nodes of `W`. The intervals of `A` have kept their
    places, the entries of `Q` their fields, and the block the fields before its trees. -/
structure Moves (v : ℕ) (live : σ → Set ℕ) (b : ℕ) (A Q : List ℕ) (W : ℕ → Prop) (M M' : Machine σ) : Prop where
  keptA : Kept 16 A M.mem M'.mem
  keptE : Kept 40 Q M.mem M'.mem
  head : Kept 24 [b] M.mem M'.mem
  within : Within v live (fun p => p = b ∨ W p) M M'

theorem Moves.refl (M : Machine σ) : Moves v live b A Q W M M :=
  ⟨fun _ _ _ _ => rfl, fun _ _ _ _ => rfl, fun _ _ _ _ => rfl, .refl M⟩

theorem Moves.trans (h : Moves v live b A Q W M M₁) (h' : Moves v live b A' Q' W' M₁ M') (hA : ∀ s ∈ A, s ∈ A')
    (hQ : ∀ s ∈ Q, s ∈ Q') (hW : ∀ p ∈ live M.env, W' p → p = b ∨ W p) : Moves v live b A Q W M M' :=
  ⟨h.keptA.trans (h'.keptA.subset hA), h.keptE.trans (h'.keptE.subset hQ), h.head.trans h'.head,
    h.within.trans h'.within fun p hp hW' => hW'.elim .inl (hW p hp)⟩

theorem Moves.mono (h : Moves v live b A Q W M M') (hA : ∀ s ∈ A', s ∈ A) (hQ : ∀ s ∈ Q', s ∈ Q)
    (hW : ∀ p ∈ live M.env, W p → p = b ∨ W' p) : Moves v live b A' Q' W' M M' :=
  ⟨h.keptA.subset hA, h.keptE.subset hQ, h.head, h.within.mono fun p hp hW' => hW'.elim .inl (hW p hp)⟩

theorem Edits.moves (h : Edits v live b k S M m') (hA : ∀ s ∈ A, s ∈ live M.env ∧ s ≠ b)
    (hQ : ∀ s ∈ Q, (s ∈ live M.env ∧ s ≠ b) ∧ (40 ≤ k ∨ s ∉ S)) :
    Moves v live b A Q (· ∈ S) M { M with mem := m' } := by
  have hwide := h.wide
  refine ⟨fun s hs i hi => h.kept s (hA s hs).1 (hA s hs).2 i (by omega), fun s hs i hi => ?_, fun s hs => ?_, h.within⟩
  · obtain ⟨⟨hlive, hsb⟩, hk | hsS⟩ := hQ s hs
    · exact h.kept s hlive hsb i (by omega)
    · exact h.within.mem s hlive (not_or.mpr ⟨hsb, hsS⟩) i (by omega)
  · exact mem_singleton.mp hs ▸ h.head

theorem Within.kept (h : Within v live W M M') (hS : ∀ s ∈ S, s ∈ live M.env ∧ ¬W s) :
    Kept 64 S M.mem M'.mem :=
  fun s hs => h.mem s (hS s hs).1 (hS s hs).2

end Moves

/-! ### The block -/

/-- The trees of a block: free intervals by address and by size, and entries. -/
structure Forest where
  a : BTree ℕ
  s : BTree ℕ
  e : BTree ℕ

/-- The structures in the trees. -/
def Forest.nodes (t : Forest) : List ℕ := t.a.inorder ++ t.e.inorder

theorem Forest.mem_nodes {t : Forest} {s : ℕ} : s ∈ t.nodes ↔ s ∈ t.a.inorder ∨ s ∈ t.e.inorder := mem_append

section Block
variable {σ : Type} {E : Env σ} {v b n : ℕ} {live : σ → Set ℕ} {W : ℕ → Prop} {M M' : Machine σ} {t : Forest}
  {S : List ℕ}

/-- The trees of the block `b` are made of nodes in use. -/
structure Home (live : σ → Set ℕ) (M : Machine σ) (b : ℕ) (S : List ℕ) : Prop where
  block : b ∈ live M.env
  nodes : ∀ s ∈ S, s ∈ live M.env

/-- A node in use that is not in the trees. -/
structure Spare (live : σ → Set ℕ) (M : Machine σ) (b : ℕ) (S : List ℕ) (n : ℕ) : Prop where
  inUse : n ∈ live M.env
  block : n ≠ b
  notMem : n ∉ S

/-- The block at `b` with its trees. -/
structure Block (live : σ → Set ℕ) (M : Machine σ) (b : ℕ) (t : Forest) : Prop where
  trees : Trees b M.mem t.a t.s t.e
  home : Home live M b t.nodes

theorem Spare.fresh (h : Spare live M b S n) (hE : Lawful E v live) (hH : Home live M b S) : Fresh b S n where
  apart s hs := (hE.node h.inUse).apart (hE.node (hH.nodes s hs)) fun heq => h.notMem (heq ▸ hs)
  block := (hE.node h.inUse).apart (hE.node hH.block) h.block
  below := ⟨(hE.node h.inUse).pos, (hE.node h.inUse).below⟩

theorem Spare.mem (h : Spare live M b S n) {S' : List ℕ} {m : Mem} (hS : n ∈ S' → n ∈ S) :
    Spare live { M with mem := m } b S' n :=
  ⟨h.inUse, h.block, fun hs => h.notMem (hS hs)⟩

theorem Trees.ne_block {m : Mem} {Ta Ts Te : BTree ℕ} (H : Trees b m Ta Ts Te) {s : ℕ}
    (hs : s ∈ Ta.inorder ++ Te.inorder) : s ≠ b := by
  rintro rfl
  rcases H.block s hs with h | h <;> omega

namespace Block
variable (B : Block live M b t)
include B

theorem node {s : ℕ} (hs : s ∈ t.nodes) : s ∈ live M.env ∧ s ≠ b :=
  ⟨B.home.nodes s hs, B.trees.ne_block hs⟩

theorem free : ∀ s ∈ t.a.inorder, s ∈ live M.env ∧ s ≠ b :=
  fun _ hs => B.node (mem_append_left _ hs)

theorem entry : ∀ s ∈ t.e.inorder, s ∈ live M.env ∧ s ≠ b :=
  fun _ hs => B.node (mem_append_right _ hs)

theorem disjoint {s : ℕ} (ha : s ∈ t.a.inorder) (he : s ∈ t.e.inorder) : False := by
  rcases B.trees.apartAE ha he with h | h <;> omega

theorem within (h : Within v live W M M') (hb : ¬W b) (ht : ∀ s ∈ t.nodes, ¬W s) :
    Block live M' b t := by
  have hword := h.mem b B.home.block hb
  have hkept := h.kept fun s hs => ⟨B.home.nodes s hs, ht s hs⟩
  refine ⟨B.trees.congr ⟨hword 24 (by decide), hword 32 (by decide), hword 40 (by decide)⟩ ?_ ?_,
    h.inUse b B.home.block hb, fun s hs => h.inUse s (B.home.nodes s hs) (ht s hs)⟩
  · exact fun s hs i _ hi => hkept s (mem_append_left _ hs) i hi
  · exact fun s hs i _ hi => hkept s (mem_append_right _ hs) i hi

theorem moves (h : Within v live W M M') (hb : ¬W b) (ht : ∀ s ∈ t.nodes, ¬W s) :
    Moves v live b t.a.inorder t.e.inorder W M M' where
  keptA := (h.kept fun s hs => ⟨(B.free s hs).1, ht s (mem_append_left _ hs)⟩).mono (by decide)
  keptE := (h.kept fun s hs => ⟨(B.entry s hs).1, ht s (mem_append_right _ hs)⟩).mono (by decide)
  head := (h.kept fun s hs => by
    obtain rfl := mem_singleton.mp hs
    exact ⟨B.home.block, hb⟩).mono (by decide)
  within := h.mono fun _ _ => .inr

end Block

end Block

/-! ### The tree operations, when they return -/

section Ops
variable {σ : Type} {E : Env σ} {v b n f : ℕ} {live : σ → Set ℕ} {M : Machine σ} {t : Forest} {m m' : Mem} {ret : ℤ}

theorem Rep.link {off p : ℕ} {T : BTree ℕ} (h : Rep off m p T) {y : ℕ} (hy : y ∈ T.inorder) :
    m (y + off) = 0 ∨ ∃ s ∈ T.inorder, m (y + off) = s + off := by
  induction T generalizing p with
  | nil => cases hy
  | node l x r ihl ihr =>
    obtain ⟨-, -, hl, hr⟩ := h
    rcases BTree.mem_node.mp hy with hy | rfl | hy
    · rcases ihl hl hy with h0 | ⟨s, hs, heq⟩
      · exact .inl h0
      · exact .inr ⟨s, BTree.mem_left hs, heq⟩
    · cases l with
      | nil => exact .inl hl
      | node l' s r' =>
        exact .inr ⟨s, BTree.mem_node.mpr (.inl BTree.mem_root), hl.1⟩
    · rcases ihr hr hy with h0 | ⟨s, hs, heq⟩
      · exact .inl h0
      · exact .inr ⟨s, BTree.mem_right hs, heq⟩

/-- A structure is accepted unless it starts at address 0: the links it is compared with are not page
    addresses. -/
theorem exists_add_of_ne_zero {off root : ℕ} {T : BTree ℕ} (hT : Rep off m root T) (hnot : n ∉ T.inorder)
    (h64 : ∀ s ∈ T.inorder, 64 ∣ s) (hoff : 0 < off ∧ off < 64) (hn : 64 ∣ m n) (h0 : m n ≠ 0) :
    ∃ T', T.add (cmpAddr off m n) false n = some T' := by
  refine BTree.exists_add hnot (.inr fun y hy hc => ?_)
  have hy := BTree.mem_of_mem_path hy
  have heq : m n = m (y + off) := by
    rw [cmpAddr, virtMemoryCompAddr] at hc
    by_contra hne
    rw [if_neg hne] at hc
    split at hc <;> cases hc
  rcases hT.link hy with h | ⟨s, hs, h⟩
  · exact h0 (heq.trans h)
  · have := h64 s hs
    omega

namespace Block
variable (B : Block live M b t) (hE : Lawful E v live)
include B hE

theorem freeAdd_ok (hn : Spare live M b t.nodes n) (h : freeAdd b n M.mem = .ok (ret, m')) (hret : ¬ret < 0) :
    ∃ Ta Ts, Block live { M with mem := m' } b ⟨Ta, Ts, t.e⟩ ∧ Ta.inorder.Perm (n :: t.a.inorder) ∧
      ∀ {A}, (∀ s ∈ A, s ∈ live M.env ∧ s ≠ b) →
        Moves v live b A t.e.inorder (· ∈ n :: t.a.inorder) M { M with mem := m' } := by
  have hS : ∀ s ∈ n :: t.a.inorder, s ∈ live M.env ∧ s ≠ b :=
    forall_mem_cons.mpr ⟨⟨hn.inUse, hn.block⟩, B.free⟩
  rcases freeAdd_spec B.trees (hn.fresh hE B.home) with ⟨-, m1, hrun, -, -⟩ | ⟨Ta, Ts, m1, hTa, -, hrun, H, hfr⟩
  all_goals
    rw [h] at hrun
    cases hrun
  · exact absurd (by decide) hret
  have hp := BTree.perm_add hTa
  refine ⟨Ta, Ts, ⟨H, B.home.block, fun s hs => ?_⟩, hp, fun hA => ?_⟩
  · rcases mem_append.mp hs with hs | hs
    · exact (hS s (hp.mem_iff.mp hs)).1
    · exact (B.entry s hs).1
  · refine (hfr.edits hE B.home.block hS).moves hA fun s hs => ⟨B.entry s hs, .inr fun hmem => ?_⟩
    rcases mem_cons.mp hmem with rfl | hmem
    · exact hn.notMem (mem_append_right _ hs)
    · exact B.disjoint hmem hs

theorem freeAdd_refused (hn : Spare live M b t.nodes n) {start : ℕ} (hstart : M.mem n = start)
    (h64 : 64 ∣ start) (h : freeAdd b n M.mem = .ok (ret, m')) (hret : ret < 0) : start = 0 ∧ t.a ≠ .nil := by
  subst hstart
  rcases freeAdd_spec B.trees (hn.fresh hE B.home) with ⟨hnone, -⟩ | ⟨Ta', Ts', m1, -, -, hrun, -, -⟩
  swap
  · rw [h] at hrun
    cases hrun
    exact absurd hret (by decide)
  refine ⟨?_, fun hnil => ?_⟩
  · by_contra h0
    obtain ⟨T', hT'⟩ := exists_add_of_ne_zero B.trees.atree (fun hmem => hn.notMem (mem_append_left _ hmem))
      (fun s hs => (hE.node (B.free s hs).1).aligned) (by decide) h64 h0
    rw [hT'] at hnone
    cases hnone
  · rw [hnil] at hnone
    cases hnone

theorem freeDelete_ok {r : ℕ} (hf : f ∈ t.a.inorder) (h : freeDelete b f M.mem = .ok (r, m')) :
    r = f ∧ ∃ Ta Ts, Block live { M with mem := m' } b ⟨Ta, Ts, t.e⟩ ∧ Ta.inorder.Perm (t.a.inorder.erase f) ∧
      Spare live { M with mem := m' } b (Forest.nodes ⟨Ta, Ts, t.e⟩) f ∧
      Moves v live b t.a.inorder t.e.inorder (· ∈ t.a.inorder) M { M with mem := m' } := by
  rcases freeDelete_spec B.trees hf with ⟨Ta, Ts, m1, hTa, -, hrun, H, hfr⟩ | ⟨-, hrun⟩
  swap
  · rw [h] at hrun
    cases hrun
  rw [h] at hrun
  obtain ⟨rfl, rfl⟩ := Prod.mk.inj (Except.ok.inj hrun)
  have hp := BTree.perm_delete hTa
  have hsub : ∀ s ∈ Ta.inorder, s ∈ t.a.inorder := fun s hs => hp.mem_iff.mpr (mem_cons_of_mem _ hs)
  refine ⟨rfl, Ta, Ts, ⟨H, B.home.block, fun s hs => ?_⟩, (perm_cons r).mp (hp.symm.trans (perm_cons_erase hf)),
    ⟨(B.free r hf).1, (B.free r hf).2, fun hs => ?_⟩, ?_⟩
  · rcases mem_append.mp hs with hs | hs
    · exact (B.free s (hsub s hs)).1
    · exact (B.entry s hs).1
  · rcases mem_append.mp hs with hs | hs
    · exact (nodup_cons.mp (hp.nodup_iff.mp (B.trees.spreadA.nodup (by decide)))).1 hs
    · exact B.disjoint hf hs
  · exact (hfr.edits hE B.home.block B.free).moves B.free fun s hs =>
      ⟨B.entry s hs, .inr fun hmem => B.disjoint hmem hs⟩

theorem entryAdd_ok (hn : Spare live M b t.nodes n) (h : entryAdd b n M.mem = .ok (ret, m')) :
    (¬ret < 0 → ∃ Te, Block live { M with mem := m' } b ⟨t.a, t.s, Te⟩ ∧ Te.inorder.Perm (n :: t.e.inorder)) ∧
      (ret < 0 → Block live { M with mem := m' } b t) ∧
      Moves v live b t.a.inorder (n :: t.e.inorder) (· ∈ n :: t.e.inorder) M { M with mem := m' } := by
  have hS : ∀ s ∈ n :: t.e.inorder, s ∈ live M.env ∧ s ≠ b :=
    forall_mem_cons.mpr ⟨⟨hn.inUse, hn.block⟩, B.entry⟩
  obtain ⟨r, m1, hrun, hfr, hr⟩ := entryAdd_spec B.trees (hn.fresh hE B.home)
  rw [h] at hrun
  cases hrun
  refine ⟨fun hret => ?_, fun hret => ?_,
    (hfr.edits hE B.home.block hS).moves B.free fun s hs => ⟨hS s hs, .inl le_rfl⟩⟩
  · rcases hr with ⟨-, Te, hTe, H⟩ | ⟨rfl, -⟩
    · have hp := BTree.perm_add hTe
      refine ⟨Te, ⟨H, B.home.block, fun s hs => ?_⟩, hp⟩
      rcases mem_append.mp hs with hs | hs
      · exact (B.free s hs).1
      · exact (hS s (hp.mem_iff.mp hs)).1
    · exact absurd (by decide) hret
  · rcases hr with ⟨rfl, -⟩ | ⟨-, -, H⟩
    · exact absurd hret (by decide)
    · exact ⟨H, B.home.block, B.home.nodes⟩

theorem entryAdd_refused (hn : Spare live M b t.nodes n) {start : ℕ} (hstart : M.mem n = start)
    (h64 : 64 ∣ start) (h : entryAdd b n M.mem = .ok (ret, m')) (hret : ret < 0) : start = 0 := by
  subst hstart
  obtain ⟨r, m1, hrun, -, hr⟩ := entryAdd_spec B.trees (hn.fresh hE B.home)
  rw [h] at hrun
  cases hrun
  rcases hr with ⟨rfl, -⟩ | ⟨-, hnone, -⟩
  · exact absurd hret (by decide)
  · by_contra h0
    obtain ⟨T', hT'⟩ := exists_add_of_ne_zero B.trees.entries (fun hmem => hn.notMem (mem_append_right _ hmem))
      (fun s hs => (hE.node (B.entry s hs).1).aligned) (by decide) h64 h0
    rw [hT'] at hnone
    cases hnone

theorem entryDelete_ok (hn : n ∈ t.e.inorder) (h : entryDelete b n M.mem = .ok (some n, m')) :
    ∃ Te, Block live { M with mem := m' } b ⟨t.a, t.s, Te⟩ ∧ t.e.inorder.Perm (n :: Te.inorder) ∧
      Spare live { M with mem := m' } b (Forest.nodes ⟨t.a, t.s, Te⟩) n ∧
      Moves v live b t.a.inorder t.e.inorder (· ∈ t.e.inorder) M { M with mem := m' } := by
  rcases entryDelete_spec B.trees hn with ⟨-, hrun⟩ | ⟨Te, m1, hTe, hrun, H, hfr⟩
  · rw [h] at hrun
    cases hrun
  rw [h] at hrun
  cases hrun
  have hp := BTree.perm_delete hTe
  refine ⟨Te, ⟨H, B.home.block, fun s hs => ?_⟩, hp, ⟨(B.entry n hn).1, (B.entry n hn).2, fun hs => ?_⟩,
    (hfr.edits hE B.home.block B.entry).moves B.free fun s hs => ⟨B.entry s hs, .inl le_rfl⟩⟩
  · rcases mem_append.mp hs with hs | hs
    · exact (B.free s hs).1
    · exact (B.entry s (hp.mem_iff.mpr (mem_cons_of_mem _ hs))).1
  · rcases mem_append.mp hs with hs | hs
    · exact B.disjoint hs hn
    · exact (nodup_cons.mp (hp.nodup_iff.mp (B.trees.spreadE.nodup (by decide)))).1 hs

end Block

end Ops

/-! ### The split -/

section Split
variable {σ : Type} {E : Env σ} {v b e f f0 f1 : ℕ} {live : σ → Set ℕ} {M M' : Machine σ} {t : Forest}
  {m m' : Mem}

/-- All that the branches can do: no part, one or two are added, or one is refused. -/
theorem addRest_cases {used : Option (List ℕ)} (h : addRest b e f f0 f1 m = .ok (used, m')) :
    rest (span m f) (span m e) = [] ∧ used = some [] ∧ m' = m ∨
    (∃ r ret m1, rest (span m f) (span m e) = [r] ∧ freeAdd b f0 (interval m f0 r.1 r.2) = .ok (ret, m1) ∧
      (ret < 0 ∧ used = none ∨ ¬ret < 0 ∧ used = some [f0] ∧ m' = m1)) ∨
    ∃ r r' ret m1, rest (span m f) (span m e) = [r, r'] ∧
      freeAdd b f0 (interval (interval m f0 r.1 r.2) f1 r'.1 r'.2) = .ok (ret, m1) ∧
      (ret < 0 ∧ used = none ∨ ¬ret < 0 ∧ ∃ ret' m2, freeAdd b f1 m1 = .ok (ret', m2) ∧
        (ret' < 0 ∧ used = none ∨ ¬ret' < 0 ∧ used = some [f0, f1] ∧ m' = m2)) := by
  rw [addRest] at h
  split at h
  · next hrest =>
    cases h
    exact .inl ⟨hrest, rfl, rfl⟩
  · next r hrest =>
    obtain ⟨⟨ret, m1⟩, hadd, h⟩ := returned h
    refine .inr (.inl ⟨r, ret, m1, hrest, hadd, ?_⟩)
    dsimp only at h
    split at h
    · next hneg =>
      obtain ⟨m2, -, h⟩ := returned h
      exact .inl ⟨hneg, (Prod.mk.inj (Except.ok.inj h)).1.symm⟩
    · next hneg =>
      cases h
      exact .inr ⟨hneg, rfl, rfl⟩
  · next r r' tail hrest =>
    obtain rfl : tail = [] := rest_tail hrest
    obtain ⟨⟨ret, m1⟩, hadd, h⟩ := returned h
    refine .inr (.inr ⟨r, r', ret, m1, hrest, hadd, ?_⟩)
    dsimp only at h
    split at h
    · next hneg =>
      obtain ⟨m2, -, h⟩ := returned h
      exact .inl ⟨hneg, (Prod.mk.inj (Except.ok.inj h)).1.symm⟩
    next hneg =>
    obtain ⟨⟨ret', m2⟩, hadd', h⟩ := returned h
    refine .inr ⟨hneg, ret', m2, hadd', ?_⟩
    dsimp only at h
    split at h
    · next hneg' =>
      obtain ⟨_, -, h⟩ := returned h
      obtain ⟨m3, -, h⟩ := returned h
      exact .inl ⟨hneg', (Prod.mk.inj (Except.ok.inj h)).1.symm⟩
    · next hneg' =>
      cases h
      exact .inr ⟨hneg', rfl, rfl⟩

theorem interval_span (n : ℕ) (r : ℕ × ℕ) : span (interval m n r.1 r.2) n = r :=
  Prod.ext interval_start interval_size

namespace Block
variable (B : Block live M b t) (hE : Lawful E v live)
include B hE

theorem setInterval {n : ℕ} (hn : Spare live M b t.nodes n) (r : ℕ × ℕ) :
    Block live { M with mem := interval M.mem n r.1 r.2 } b t ∧
      Within v live (· = n) M { M with mem := interval M.mem n r.1 r.2 } := by
  have hw : Within v live (· = n) M { M with mem := interval M.mem n r.1 r.2 } :=
    within_node hE (hE.node hn.inUse) fun a ha => interval_of_ne (by omega) (by omega)
  exact ⟨B.within hw hn.block.symm fun s hs heq => hn.notMem (heq ▸ hs), hw⟩

section
variable (h0 : Spare live M b t.nodes f0) (h1 : Spare live M b t.nodes f1) (h01 : f0 ≠ f1)
include h0 h1 h01

theorem setIntervals (r r' : ℕ × ℕ) :
    Block live { M with mem := interval (interval M.mem f0 r.1 r.2) f1 r'.1 r'.2 } b t ∧
      Within v live (fun p => p = f0 ∨ p = f1) M { M with mem := interval (interval M.mem f0 r.1 r.2) f1 r'.1 r'.2 } ∧
      span (interval (interval M.mem f0 r.1 r.2) f1 r'.1 r'.2) f0 = r := by
  obtain ⟨B0, hw⟩ := B.setInterval hE h0 r
  obtain ⟨B1, hw'⟩ := B0.setInterval hE (h1.mem id) r'
  refine ⟨B1, (hw.mono fun _ _ => .inl).trans hw' fun _ _ => .inr, ?_⟩
  have hk : Kept 64 [f0] _ _ := hw'.kept fun s hs => by
    obtain rfl := mem_singleton.mp hs
    exact ⟨h0.inUse, h01⟩
  exact (hk.span_eq (by decide) (mem_singleton_self f0)).trans (interval_span f0 r)

/-- The parts that are left over are added with the structures `f0` and `f1`. -/
theorem addRest_ok {used : List ℕ} (h : addRest b e f f0 f1 M.mem = .ok (some used, m')) :
    ∃ Ta Ts, Block live { M with mem := m' } b ⟨Ta, Ts, t.e⟩ ∧
      Ta.inorder.Perm (used ++ t.a.inorder) ∧ used.map (span m') = rest (span M.mem f) (span M.mem e) ∧
      used.Sublist [f0, f1] ∧
      Moves v live b t.a.inorder t.e.inorder (fun p => p ∈ t.a.inorder ∨ p = f0 ∨ p = f1) M { M with mem := m' } := by
  have hin : ∀ s ∈ f0 :: f1 :: t.a.inorder, s ∈ live M.env ∧ s ≠ b :=
    forall_mem_cons.mpr ⟨⟨h0.inUse, h0.block⟩, forall_mem_cons.mpr ⟨⟨h1.inUse, h1.block⟩, B.free⟩⟩
  have hne0 : ∀ s ∈ t.nodes, s ≠ f0 := fun s hs heq => h0.notMem (heq ▸ hs)
  have hne1 : ∀ s ∈ t.nodes, s ≠ f1 := fun s hs heq => h1.notMem (heq ▸ hs)
  rcases addRest_cases h with ⟨hrest, hused, rfl⟩ | ⟨r, ret, m1, hrest, hadd, ⟨-, hused⟩ | ⟨hret, hused, rfl⟩⟩ |
    ⟨r, r', ret, m1, hrest, hadd, ⟨-, hused⟩ | ⟨hret, ret', m2, hadd', ⟨-, hused⟩ | ⟨hret', hused, rfl⟩⟩⟩
  all_goals cases hused
  · exact ⟨t.a, t.s, B, .refl _, hrest.symm, nil_sublist _, .refl M⟩
  · obtain ⟨B0, hw⟩ := B.setInterval hE h0 r
    obtain ⟨Ta, Ts, B1, hp, hmoves⟩ := B0.freeAdd_ok hE (h0.mem id) hadd hret
    refine ⟨Ta, Ts, B1, hp, ?_, (nil_sublist _).cons_cons f0, ?_⟩
    · rw [hrest, map_singleton, (hmoves hin).keptA.span_eq (by decide) mem_cons_self, interval_span]
    · refine ((B.moves hw h0.block.symm hne0).mono (fun _ => id) (fun _ => id) fun p _ heq =>
        .inr (.inr (.inl heq))).trans (hmoves B.free) (fun _ => id) (fun _ => id) fun p _ hp => .inr ?_
      rcases mem_cons.mp hp with hp | hp
      · exact .inr (.inl hp)
      · exact .inl hp
  · obtain ⟨B0, hw, hspan0⟩ := B.setIntervals hE h0 h1 h01 r r'
    obtain ⟨Ta, Ts, B1, hp, hmoves⟩ := B0.freeAdd_ok hE (h0.mem id) hadd hret
    have hf1 : f1 ∈ Forest.nodes ⟨Ta, Ts, t.e⟩ → f1 ∈ t.nodes := by
      simp [Forest.mem_nodes, hp.mem_iff, h01.symm]
    obtain ⟨Ta', Ts', B2, hp', hmoves'⟩ := B1.freeAdd_ok hE (h1.mem hf1) hadd' hret'
    have hk := (hmoves hin).keptA.trans (hmoves' hin).keptA
    refine ⟨Ta', Ts', B2, (hp'.trans (hp.cons f1)).trans (List.Perm.swap f0 f1 _), ?_, List.Sublist.refl _, ?_⟩
    · rw [hrest, map_cons, map_singleton, hk.span_eq (by decide) (by simp), hk.span_eq (by decide) (by simp),
        hspan0, interval_span]
    · have hb : ¬(b = f0 ∨ b = f1) := not_or.mpr ⟨h0.block.symm, h1.block.symm⟩
      have hset := B.moves hw hb fun s hs => not_or.mpr ⟨hne0 s hs, hne1 s hs⟩
      refine ((hset.mono (fun _ => id) (fun _ => id) fun p _ heq => .inr (.inr heq)).trans (hmoves B.free)
        (fun _ => id) (fun _ => id) fun p _ hs => .inr ?_).trans (hmoves' B.free) (fun _ => id) (fun _ => id)
        fun p _ hs => .inr ?_
      · rcases mem_cons.mp hs with hs | hs
        · exact .inr (.inl hs)
        · exact .inl hs
      · simp only [mem_cons, hp.mem_iff] at hs
        tauto

theorem addRest_none (hrest : ∀ r ∈ rest (span M.mem f) (span M.mem e), 64 ∣ r.1 ∧ r.1 ≠ 0) :
    addRest b e f f0 f1 M.mem ≠ .ok (none, m') := by
  intro h
  rcases addRest_cases h with ⟨-, hused, -⟩ | ⟨r, ret, m1, heq, hadd, ⟨hret, -⟩ | ⟨-, hused, -⟩⟩ |
    ⟨r, r', ret, m1, heq, hadd, ⟨hret, -⟩ | ⟨hret, ret', m2, hadd', ⟨hret', -⟩ | ⟨-, hused, -⟩⟩⟩
  · cases hused
  · have hr := hrest r (heq ▸ mem_singleton_self r)
    obtain ⟨B0, -⟩ := B.setInterval hE h0 r
    exact hr.2 (B0.freeAdd_refused hE (h0.mem id) interval_start hr.1 hadd hret).1
  · cases hused
  · have hr := hrest r (heq ▸ mem_cons_self ..)
    obtain ⟨B0, -, hspan0⟩ := B.setIntervals hE h0 h1 h01 r r'
    exact hr.2 (B0.freeAdd_refused hE (h0.mem id) (congrArg Prod.fst hspan0) hr.1 hadd hret).1
  · have hr := hrest r' (heq ▸ mem_cons_of_mem _ (mem_singleton_self r'))
    obtain ⟨B0, -, -⟩ := B.setIntervals hE h0 h1 h01 r r'
    obtain ⟨Ta, Ts, B1, hp, hmoves⟩ := B0.freeAdd_ok hE (h0.mem id) hadd hret
    have hf1 : f1 ∈ Forest.nodes ⟨Ta, Ts, t.e⟩ → f1 ∈ t.nodes := by
      simp [Forest.mem_nodes, hp.mem_iff, h01.symm]
    have hk := (hmoves (forall_mem_singleton.mpr ⟨h1.inUse, h1.block⟩)).keptA
    have hstart : m1 f1 = r'.1 := (hk f1 (mem_singleton_self f1) 0 (by decide)).trans interval_start
    exact hr.2 (B1.freeAdd_refused hE (h1.mem hf1) hstart hr.1 hadd' hret').1
  · cases hused

end

end Block

theorem within_free_unless (hE : Lawful E v live) {p : ℕ} (hp : NodeAt v p) (c : Prop) [Decidable c]
    (M : Machine σ) : Within v live (fun q => ¬c ∧ q = p) M (if c then M else freeNode E v p M) := by
  split
  · exact Within.refl M
  · next hc => exact (freeNode_spec hE v hp M).mono fun q _ hq => ⟨hc, hq⟩

theorem giveBack_within (hE : Lawful E v live) (hf : NodeAt v f) (h0 : NodeAt v f0) (h1 : NodeAt v f1)
    (used : List ℕ) (keep : Bool) (M : Machine σ) :
    Within v live (fun p => (p = f0 ∨ p = f1) ∧ p ∉ used ∨ p = f) M (giveBack E v f f0 f1 used keep M) := by
  refine Within.trans (Within.trans (Within.mono (within_free_unless hE h0 _ _) ?_)
    (within_free_unless hE h1 _ _) ?_) (freeNode_spec hE v hf _) ?_
  · rintro p _ ⟨hu, rfl⟩
    exact .inl ⟨.inl rfl, hu⟩
  · rintro p _ ⟨hu, rfl⟩
    exact .inl ⟨.inr rfl, fun hmem => hu (.inl hmem)⟩
  · rintro p _ rfl
    exact .inr rfl

theorem Spare.erased {n : ℕ} {Ta Ts : BTree ℕ} (h : Spare live M b t.nodes n) (hp : Ta.inorder.Perm (t.a.inorder.erase f)) :
    Spare live { M with mem := m } b (Forest.nodes ⟨Ta, Ts, t.e⟩) n :=
  h.mem fun hs => Forest.mem_nodes.mpr ((Forest.mem_nodes.mp hs).imp_left fun hs => mem_of_mem_erase (hp.mem_iff.mp hs))

/-- SPLIT: the free intervals are the old ones without `f` and what is left over of `f`. -/
theorem Block.split (B : Block live M b t) (hE : Lawful E v live) (hf : f ∈ t.a.inorder) (he : e ∈ t.e.inorder)
    (h0 : Spare live M b t.nodes f0) (h1 : Spare live M b t.nodes f1) (h01 : f0 ≠ f1) {keepF1 : Bool}
    (h : splitFree E v b e f f0 f1 keepF1 M = .ok (true, M')) :
    ∃ Ta Ts used, Block live M' b ⟨Ta, Ts, t.e⟩ ∧ Ta.inorder.Perm (used ++ t.a.inorder.erase f) ∧
      used.map (span M'.mem) = rest (span M.mem f) (span M.mem e) ∧ used.Sublist [f0, f1] ∧
      Moves v live b (t.a.inorder.erase f) t.e.inorder (fun p => p ∈ t.a.inorder ∨ p = f0 ∨ p = f1) M M' := by
  obtain ⟨f', m1, parts, m2, hdel, hadd, ⟨-, hfalse, -⟩ | ⟨used, rfl, -, hM'⟩⟩ := splitFree_cases h
  · cases hfalse
  obtain ⟨rfl, Ta1, Ts1, B1, hp1, hspare, hmoves1⟩ := B.freeDelete_ok hE hf hdel
  have hsub : ∀ s ∈ Ta1.inorder, s ∈ t.a.inorder := fun s hs => mem_of_mem_erase (hp1.mem_iff.mp hs)
  have h0' : Spare live { M with mem := m1 } b (Forest.nodes ⟨Ta1, Ts1, t.e⟩) f0 := h0.erased hp1
  have h1' : Spare live { M with mem := m1 } b (Forest.nodes ⟨Ta1, Ts1, t.e⟩) f1 := h1.erased hp1
  obtain ⟨Ta, Ts, B2, hp2, hspans, hused, hmoves2⟩ := B1.addRest_ok hE h0' h1' h01 hadd
  -- the frees touch what is not in the new trees
  have hfree := giveBack_within hE (hE.node (B.free f' hf).1) (hE.node h0.inUse) (hE.node h1.inUse) used
    (keepF1 ∧ m1 f' = m1 e ∧ m1 (f' + 8) ≠ m1 (e + 8)) { M with mem := m2 }
  rw [← hM'] at hfree
  have hnot : ∀ s ∈ Forest.nodes ⟨Ta, Ts, t.e⟩, ¬((s = f0 ∨ s = f1) ∧ s ∉ used ∨ s = f') := by
    intro s hs
    have hs' : s ∈ used ∨ s ∈ Forest.nodes ⟨Ta1, Ts1, t.e⟩ := by
      simpa [Forest.mem_nodes, hp2.mem_iff, or_assoc] using hs
    rintro (⟨h, hu⟩ | rfl)
    · rcases h with rfl | rfl
      · exact h0'.notMem (hs'.resolve_left hu)
      · exact h1'.notMem (hs'.resolve_left hu)
    · rcases hs' with hs' | hs'
      · rcases mem_pair.mp (hused.subset hs') with rfl | rfl
        · exact h0.notMem (mem_append_left _ hf)
        · exact h1.notMem (mem_append_left _ hf)
      · exact hspare.notMem hs'
  have hb : ¬((b = f0 ∨ b = f1) ∧ b ∉ used ∨ b = f') := by
    rintro (⟨h | h, -⟩ | h)
    · exact h0.block h.symm
    · exact h1.block h.symm
    · exact hspare.block h.symm
  have hmoves3 := B2.moves hfree hb hnot
  refine ⟨Ta, Ts, used, B2.within hfree hb hnot, hp2.trans (hp1.append_left used), ?_, hused, ?_⟩
  · have hsub' : ∀ s ∈ used, s ∈ Ta.inorder := fun s hs => hp2.mem_iff.mpr (mem_append_left _ hs)
    rw [(hmoves3.keptA.subset hsub').map_span (by decide), hspans, hmoves1.keptA.span_eq (by decide) hf,
      hmoves1.keptE.span_eq (by decide) he]
  · refine ((hmoves1.mono (fun s hs => mem_of_mem_erase hs) (fun _ => id) fun p _ hp => .inr (.inl hp)).trans
      hmoves2 (fun s hs => hp1.mem_iff.mpr hs) (fun _ => id) fun p _ hp => .inr (hp.imp_left (hsub p))).trans hmoves3
      (fun s hs => hp2.mem_iff.mpr (mem_append_right _ (hp1.mem_iff.mpr hs))) (fun _ => id) fun p _ hp => .inr ?_
    rcases hp with ⟨hp, -⟩ | rfl
    · exact .inr hp
    · exact .inl hf

theorem Block.split_ne_false (B : Block live M b t) (hE : Lawful E v live) (hf : f ∈ t.a.inorder)
    (he : e ∈ t.e.inorder) (h0 : Spare live M b t.nodes f0) (h1 : Spare live M b t.nodes f1) (h01 : f0 ≠ f1)
    {keepF1 : Bool} (hrest : ∀ r ∈ rest (span M.mem f) (span M.mem e), 64 ∣ r.1 ∧ r.1 ≠ 0) :
    splitFree E v b e f f0 f1 keepF1 M ≠ .ok (false, M') := by
  intro h
  obtain ⟨f', m1, parts, m2, hdel, hadd, ⟨rfl, -, -⟩ | ⟨-, -, htrue, -⟩⟩ := splitFree_cases h
  swap
  · cases htrue
  obtain ⟨rfl, Ta, Ts, B1, hp, -, hmoves⟩ := B.freeDelete_ok hE hf hdel
  refine B1.addRest_none hE (h0.erased hp) (h1.erased hp) h01 ?_ hadd
  rw [hmoves.keptA.span_eq (by decide) hf, hmoves.keptE.span_eq (by decide) he]
  exact hrest

end Split

end Advos.Vmem
