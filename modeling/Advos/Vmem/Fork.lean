import Advos.Schemes.Run
import Advos.Schemes.Visit
import Advos.Vmem.Spans

/-! Copying an address space (`virt_memory_fork`).

    Block by block the entries of `src` are copied to `dst`, each with the object that was copied for it
    before, or with a new one. `_entry_fork` copies the entry of a node, then those of its left subtree,
    then those of its right subtree:

        ret = _entry_fork(.., e->atree.left, ..)     ret < 0:    return -1
        ret = _entry_fork(.., e->atree.right, ..)    ret < -1:   return -1

    It returns 0 or -1, so the second test never holds: a failure is returned when it happens on the
    left spine of the tree, and is dropped anywhere else.

    `src` is read in the state `S` that it has when the call is made: `dst` is made of new nodes, and
    nothing of `src` is written. -/

namespace Advos.Vmem
open SearchTree Visit Word Space List

variable {σ : Type}

/-! ### The functions -/

/-- `btree_traverse`. -/
def btreeTraverse {τ : Type} (func : ℕ → τ → ℤ × τ) (m : Mem) : ℕ → ℕ → τ → Except Stop (ℤ × τ)
  | 0, _, _ => .error .hang
  | k + 1, n, s =>
    if n = 0 then pure (0, s)
    else do
      let (ret, s) ← btreeTraverse func m k (m n) s
      if ret ≠ 0 then pure (ret, s)
      else
        let (ret, s) := func (m (n + 16)) s
        if ret ≠ 0 then pure (ret, s) else btreeTraverse func m k (m (n + 8)) s

/-- `virt_memory_entry_count`. -/
def virtMemoryEntryCount (_ : ℕ) (size : ℕ) : ℤ × ℕ := (0, add64 size 1)

/-- The loop of `_copy_object` over the two lists of pages. -/
def copyPages (E : Env σ) (arch : ℕ) : List Page → List Page → σ → ℤ × σ
  | dp :: dps, sp :: sps, s =>
    if dp.index ≠ sp.index ∨ dp.order ≠ sp.order then (-1, s)
    else copyPages E arch dps sps (E.copy s arch dp.physical sp.physical (mul64 (2 ^ dp.order) 4096))
  | _, _, s => (0, s)

/-- `_copy_object`. -/
def copyObject (E : Env σ) (src : ℕ) (S : Machine σ) (dst orig : ℕ) (M : Machine σ) : ℤ × Machine σ :=
  let (ret, s) := copyPages E (S.mem (src + 48)) (M.obj dst).pages (S.obj orig).pages M.env
  (ret, { M with env := s })

/-- The cache of the objects copied so far, pairs of an object of `src` and its copy, and the machine. -/
structure Forking (σ : Type) where
  ccl : List (ℕ × ℕ)
  mach : Machine σ

/-- The loop over the cache: the index where it ends, and the copy of the object `orig`, if there is one. -/
def cached (orig : ℕ) : List (ℕ × ℕ) → ℕ → Option ℕ → ℕ × Option ℕ
  | [], i, obj => (i, obj)
  | c :: ccl, i, obj =>
    if c.1 = 0 then (i, obj) else cached orig ccl (i + 1) (if c.1 = orig then some c.2 else obj)

/-- The object for the copies of the entries on `orig`. -/
def forkObject (E : Env σ) (dst nr : ℕ) (S : Machine σ) (orig : ℕ) (F : Forking σ) : Option ℕ × Forking σ :=
  match cached orig F.ccl 0 none with
  | (_, some obj) => (some obj, F)
  | (i, none) =>
    if i ≥ nr then (none, F)
    else
      let (obj, M) := virtMemoryAllocObject E dst (S.obj orig).size F.mach
      if obj = 0 then (none, { F with mach := M }) else (some obj, ⟨F.ccl.set i (orig, obj), M⟩)

/-- The part of `_entry_fork` that copies the entry `e`; `false` where it returns -1. The new entry is
    added to the tree of the block that it is in, and then to the tree of `b`. -/
def copyEntry (E : Env σ) (dst b nr : ℕ) (S : Machine σ) (e : ℕ) (F : Forking σ) :
    Except Stop (Bool × Forking σ) :=
  match forkObject E dst nr S (S.mem (e + 16)) F with
  | (none, F) => pure (false, F)
  | (some obj, F) => do
    let (n, M) ←
      virtMemoryAllocEntry E dst obj (S.mem e) (S.mem (e + 8)) (S.mem (e + 24)) (S.mem (e + 32)) F.mach
    if n = 0 then pure (false, { F with mach := M })
    else
      let (ret, m) ← entryAdd b n M.mem
      let M := { M with mem := m }
      if ret < 0 then pure (false, { F with mach := freeNode E dst n M }) else pure (true, { F with mach := M })

/-- `_entry_fork` for the node `bn` of an entry tree of `src`. To read the data of NULL is a fault. -/
def entryFork (E : Env σ) (dst b nr : ℕ) (S : Machine σ) : ℕ → ℕ → Forking σ → Except Stop (ℤ × Forking σ)
  | 0, _, _ => .error .hang
  | k + 1, bn, F =>
    if bn = 0 then .error .panic
    else do
      let e := S.mem (bn + 16)
      let (ok, F) ← copyEntry E dst b nr S e F
      if !ok then pure (-1, F)
      else
        let (ret, F) ← (if S.mem (e + 40) ≠ 0 then entryFork E dst b nr S k (S.mem (e + 40)) F else pure (0, F) :)
        if ret < 0 then pure (-1, F)
        else
          let (ret, F) ← (if S.mem (e + 48) ≠ 0 then entryFork E dst b nr S k (S.mem (e + 48)) F else pure (0, F) :)
          if ret < -1 then pure (-1, F) else pure (0, F)

/-- `_entry_free_all`. -/
def entryFreeAll (E : Env σ) (v : ℕ) : ℕ → ℕ → Machine σ → Except Stop (Machine σ)
  | 0, _, _ => .error .hang
  | k + 1, n, M =>
    if n = 0 then .error .panic
    else do
      let e := M.mem (n + 16)
      let M ← (if M.mem (e + 40) ≠ 0 then entryFreeAll E v k (M.mem (e + 40)) M else pure M :)
      let M ← (if M.mem (e + 48) ≠ 0 then entryFreeAll E v k (M.mem (e + 48)) M else pure M :)
      pure (freeNode E v e M)

/-- The loop of `_block_fork` that copies the contents of the objects; what `_copy_object` returns is not
    looked at. -/
def copyObjects (E : Env σ) (src : ℕ) (S : Machine σ) : List (ℕ × ℕ) → Machine σ → Machine σ
  | [], M => M
  | c :: ccl, M => if c.1 = 0 then M else copyObjects E src S ccl (copyObject E src S c.2 c.1 M).2

/-- `_block_fork` for the block `sb` of `src`. -/
def blockFork (E : Env σ) (dst src : ℕ) (S : Machine σ) (sb : ℕ) (M : Machine σ) :
    Except Stop (ℤ × Machine σ) := do
  let (b, M) ← virtMemoryBlockAdd E dst (S.mem sb) (S.mem (sb + 8)) M
  if b = 0 then pure (-1, M)
  else
    let (_, nr) ← btreeTraverse virtMemoryEntryCount S.mem fuel (S.mem (sb + 24)) 0
    let (ret, F) ← entryFork E dst b nr S fuel (S.mem (sb + 24)) ⟨List.replicate nr (0, 0), M⟩
    if ret < 0 then
      let M ← entryFreeAll E dst fuel (F.mach.mem (b + 24)) F.mach
      pure (-1, freeNode E dst b M)
    else pure (0, copyObjects E src S F.ccl F.mach)

/-- The loop of `virt_memory_fork` from the block `sb` on. -/
def forkBlocks (E : Env σ) (dst src : ℕ) (S : Machine σ) : ℕ → ℕ → Machine σ → Except Stop (ℤ × Machine σ)
  | 0, _, _ => .error .hang
  | k + 1, sb, M =>
    if sb = 0 then pure (0, M)
    else do
      let (ret, M) ← blockFork E dst src S sb M
      if ret < 0 then pure (-1, M) else forkBlocks E dst src S k (S.mem (sb + 16)) M

/-- `virt_memory_fork`. -/
def virtMemoryFork (E : Env σ) (dst src : ℕ) (S M : Machine σ) : Except Stop (ℤ × Machine σ) :=
  forkBlocks E dst src S fuel (S.mem (src + 8)) M

/-! ### The walk over an entry tree -/

section Entries
variable {E : Env σ} {dst b nr k p : ℕ} {S : Machine σ} {T : BTree ℕ} {F : Forking σ} {m : Mem}

theorem Rep.ne_zero (h : Rep 40 m p T) (hT : T ≠ .nil) : p ≠ 0 := fun hp => hT (h.eq_zero_iff.mp hp)

/-- A traversal with a callback that always returns 0 hands it the `data` of every node, from left to right. -/
theorem btreeTraverse_rep {τ : Type} {off : ℕ} (f : ℕ → τ → τ) (h : Rep off m p T) (hk : T.inorder.length < k) (s : τ) :
    btreeTraverse (fun d s => (0, f d s)) m k p s =
      .ok (0, (T.inorder.map fun x => m (x + off + 16)).foldl (fun s d => f d s) s) := by
  induction T generalizing k p s with
  | nil =>
    obtain ⟨k, rfl⟩ := Nat.exists_eq_succ_of_ne_zero (Nat.ne_zero_of_lt hk)
    rw [btreeTraverse, if_pos (show p = 0 from h)]
    rfl
  | node l x r ihl ihr =>
    obtain ⟨k, rfl⟩ := Nat.exists_eq_succ_of_ne_zero (Nat.ne_zero_of_lt hk)
    obtain ⟨rfl, hx, hl, hr⟩ := h
    simp only [BTree.inorder_node, length_append, length_cons] at hk
    rw [btreeTraverse, if_neg (by omega), ihl hl (by omega)]
    simp only [bind, Except.bind, ne_eq, not_true_eq_false, if_false]
    rw [ihr hr (by omega), BTree.inorder_node, map_append, foldl_append, map_cons, foldl_cons]

theorem foldl_count (l : List ℕ) (n : ℕ) (hn : n + l.length < 2 ^ 64) :
    l.foldl (fun s _ => add64 s 1) n = n + l.length := by
  induction l generalizing n with
  | nil => rfl
  | cons d l ih =>
    rw [length_cons] at hn
    rw [foldl_cons, add64_of_lt (by omega), ih (n + 1) (by omega), length_cons]
    omega

theorem traverse_count (h : Rep 40 m p T) (hk : T.inorder.length < k) (n : ℕ) (hn : n + T.inorder.length < 2 ^ 64) :
    btreeTraverse virtMemoryEntryCount m k p n = .ok (0, n + T.inorder.length) := by
  have htrav := btreeTraverse_rep (fun _ s => add64 s 1) h hk n
  rw [foldl_count _ n (by rwa [length_map]), length_map] at htrav
  exact htrav

/-- WALK: `_entry_fork` is the walk that drops what the right subtree returns. -/
theorem entryFork_eq (h : Rep 40 S.mem p T) (hd : Data 40 S.mem T) (hT : T ≠ .nil) (hk : T.inorder.length < k) :
    entryFork E dst b nr S k p F =
      (walk (copyEntry E dst b nr S) T F).map fun a => (if a.1 then 0 else -1, a.2) := by
  induction T generalizing k p F with
  | nil => exact absurd rfl hT
  | node l s r ihl ihr =>
    obtain ⟨k, rfl⟩ := Nat.exists_eq_succ_of_ne_zero (Nat.ne_zero_of_lt hk)
    obtain ⟨rfl, -, hl, hr⟩ := h
    simp only [BTree.inorder_node, length_append, length_cons] at hk
    have hs : S.mem (s + 40 + 16) = s := hd s (by simp)
    -- the two tests for NULL are for an empty subtree
    have hsub : ∀ {T' : BTree ℕ} {q : ℕ} {F : Forking σ}, Rep 40 S.mem q T' →
        (T' ≠ .nil → entryFork E dst b nr S k q F =
          (walk (copyEntry E dst b nr S) T' F).map fun a => (if a.1 then 0 else -1, a.2)) →
        (if q ≠ 0 then entryFork E dst b nr S k q F else pure (0, F)) =
          (walk (copyEntry E dst b nr S) T' F).map fun a => (if a.1 then 0 else -1, a.2) := by
      intro T' q F hq ih
      rcases eq_or_ne T' .nil with rfl | hne
      · rw [if_neg (not_not.mpr (hq.eq_zero_iff.mpr rfl))]
        rfl
      · rw [if_pos (hq.ne_zero hne), ih hne]
    have hL := fun F => hsub (F := F) hl fun hne =>
      ihl hl (fun x hx => hd x (BTree.mem_left hx)) hne (by omega)
    have hR := fun F => hsub (F := F) hr fun hne =>
      ihr hr (fun x hx => hd x (BTree.mem_right hx)) hne (by omega)
    rw [entryFork, if_neg (by omega), hs, walk]
    dsimp only
    rcases copyEntry E dst b nr S s F with e | ⟨_ | _, F₁⟩
    · rfl
    · rfl
    · simp only [bind, Except.bind, Bool.not_true, Bool.false_eq_true, if_false]
      rw [hL F₁]
      rcases walk (copyEntry E dst b nr S) l F₁ with e | ⟨_ | _, F2⟩
      · rfl
      · rfl
      · simp only [Except.map, if_true, lt_irrefl, if_false]
        rw [hR F2]
        rcases walk (copyEntry E dst b nr S) r F2 with e | ⟨_ | _, F3⟩ <;> rfl

end Entries

/-! ### The blocks of a space -/

/-- The blocks of the space `src`, and the tree of the entries of each. -/
structure SourceSpace (m : Mem) (src : ℕ) (bs : List (ℕ × BTree ℕ)) : Prop where
  chain : Linked.Chain (nextBlock m) (ptr (m (src + 8))) (bs.map Prod.fst)
  below : ∀ x ∈ bs, 0 < x.1 ∧ x.1 < 2 ^ 64
  trees : ∀ x ∈ bs, Rep 40 m (m (x.1 + 24)) x.2 ∧ Data 40 m x.2
  nodes : ∀ x ∈ bs, x.2.inorder.Nodup ∧ ∀ s ∈ x.2.inorder, 0 < s ∧ s < 2 ^ 64

theorem SourceSpace.length_lt {m : Mem} {src : ℕ} {bs : List (ℕ × BTree ℕ)} (h : SourceSpace m src bs) :
    bs.length < fuel := by
  have hlt : (bs.map Prod.fst).length < fuel := length_lt_fuel h.chain.nodup fun b hb => by
    obtain ⟨x, hx, rfl⟩ := mem_map.mp hb
    exact h.below x hx
  rwa [length_map] at hlt

section Blocks
variable (E : Env σ) (dst src : ℕ) (S : Machine σ)

/-- The loop of `virt_memory_fork` over the blocks `bs`, from the machine `M` on, comes to the block `x` with
    the machine `M'`. -/
inductive Reached : List (ℕ × BTree ℕ) → Machine σ → ℕ × BTree ℕ → Machine σ → Prop
  | here {x : ℕ × BTree ℕ} {bs : List (ℕ × BTree ℕ)} {M : Machine σ} : Reached (x :: bs) M x M
  | next {x y : ℕ × BTree ℕ} {bs : List (ℕ × BTree ℕ)} {M M₁ M' : Machine σ} :
      blockFork E dst src S x.1 M = .ok (0, M₁) → Reached bs M₁ y M' → Reached (x :: bs) M y M'

/-- The block `b` is added for `x`, and its entries are copied from the state `F` on. -/
def Begins (x : ℕ × BTree ℕ) (M : Machine σ) (b : ℕ) (F : Forking σ) : Prop :=
  virtMemoryBlockAdd E dst (S.mem x.1) (S.mem (x.1 + 8)) M = .ok (b, F.mach) ∧ b ≠ 0 ∧
    F.ccl = List.replicate x.2.inorder.length (0, 0)

/-- Copying the entry `e` of the block `x` works, or fails. -/
def Copies (x : ℕ × BTree ℕ) (M : Machine σ) (e : ℕ) (ok : Bool) : Prop :=
  ∃ b F, Begins E dst S x M b F ∧ Tries (copyEntry E dst b x.2.inorder.length S) x.2 F e ok

/-- One of the entries `es` of the block `x`, copied one after the other to the block `b`, cannot be copied;
    the first such leaves the state `F`. -/
def Refuses (x : ℕ × BTree ℕ) (M : Machine σ) (es : List ℕ) (b : ℕ) (F : Forking σ) : Prop :=
  ∃ F₀, Begins E dst S x M b F₀ ∧ visitAll (copyEntry E dst b x.2.inorder.length S) es F₀ = .ok (false, F)

/-- The block `x` cannot be added; or an entry on the left spine of its tree cannot be copied, and what was
    added to the new block before can be freed. -/
def Told (x : ℕ × BTree ℕ) (M : Machine σ) : Prop :=
  (∃ M', virtMemoryBlockAdd E dst (S.mem x.1) (S.mem (x.1 + 8)) M = .ok (0, M')) ∨
    ∃ b F M', Refuses E dst S x M (spine x.2) b F ∧ entryFreeAll E dst fuel (F.mach.mem (b + 24)) F.mach = .ok M'

/-- Where copying an entry fails, -1 is returned; and 0 is returned only if every entry was copied. -/
structure Reports (bs : List (ℕ × BTree ℕ)) (M : Machine σ) : Prop where
  failed : (∃ x M₁ e, Reached E dst src S bs M x M₁ ∧ Copies E dst S x M₁ e false) →
    ∃ M', virtMemoryFork E dst src S M = .ok (-1, M')
  done : ∀ M', virtMemoryFork E dst src S M = .ok (0, M') → ∀ x ∈ bs, ∀ e ∈ x.2.inorder,
    ∃ M₁, Reached E dst src S bs M x M₁ ∧ Copies E dst S x M₁ e true

variable {E dst src S} {x : ℕ × BTree ℕ} {bs : List (ℕ × BTree ℕ)} {M M' : Machine σ}

/-- Some copy fails exactly when the entries cannot all be copied one after the other. -/
theorem exists_copies_false : (∃ e, Copies E dst S x M e false) ↔ ∃ b F, Refuses E dst S x M (preorder x.2) b F := by
  constructor
  · rintro ⟨e, b, F, hF, he⟩
    obtain ⟨F', h⟩ := exists_tries_false.mp ⟨e, he⟩
    exact ⟨b, F', F, hF, h⟩
  · rintro ⟨b, F', F, hF, h⟩
    obtain ⟨e, he⟩ := exists_tries_false.mpr ⟨F', h⟩
    exact ⟨e, b, F, hF, he⟩

theorem blockFork_eq {T : BTree ℕ} {sb b : ℕ} {M₁ : Machine σ} (hrep : Rep 40 S.mem (S.mem (sb + 24)) T)
    (hd : Data 40 S.mem T) (hlen : T.inorder.length < fuel)
    (hadd : virtMemoryBlockAdd E dst (S.mem sb) (S.mem (sb + 8)) M = .ok (b, M₁)) (hb : b ≠ 0) :
    blockFork E dst src S sb M =
      if T = .nil then .error .panic
      else match walk (copyEntry E dst b T.inorder.length S) T ⟨List.replicate T.inorder.length (0, 0), M₁⟩ with
        | .error e => .error e
        | .ok (false, F) =>
          (entryFreeAll E dst fuel (F.mach.mem (b + 24)) F.mach).map fun M => (-1, freeNode E dst b M)
        | .ok (true, F) => .ok (0, copyObjects E src S F.ccl F.mach) := by
  have hcount := traverse_count hrep hlen 0 (by rw [Nat.zero_add]; exact hlen)
  rw [blockFork, hadd]
  simp only [bind, Except.bind, hb, if_false, hcount, Nat.zero_add]
  rcases eq_or_ne T .nil with rfl | hT
  · rw [if_pos rfl, show S.mem (sb + 24) = 0 from hrep]
    rfl
  · rw [if_neg hT, entryFork_eq hrep hd hT hlen]
    match walk (copyEntry E dst b T.inorder.length S) T ⟨List.replicate T.inorder.length (0, 0), M₁⟩ with
    | .error e => rfl
    | .ok (false, F) =>
      simp only [Except.map, Bool.false_eq_true, if_false]
      rfl
    | .ok (true, F) => rfl

theorem blockFork_ret {sb : ℕ} {ret : ℤ} (h : blockFork E dst src S sb M = .ok (ret, M')) : ret = 0 ∨ ret = -1 := by
  rw [blockFork] at h
  obtain ⟨⟨b, M₁⟩, -, h⟩ := returned h
  dsimp only at h
  split at h
  · exact .inr (Prod.mk.inj (Except.ok.inj h)).1.symm
  obtain ⟨⟨_, nr⟩, -, h⟩ := returned h
  obtain ⟨⟨ret', F⟩, -, h⟩ := returned h
  dsimp only at h
  split at h
  · obtain ⟨M₂, -, h⟩ := returned h
    exact .inr (Prod.mk.inj (Except.ok.inj h)).1.symm
  · exact .inl (Prod.mk.inj (Except.ok.inj h)).1.symm

/-- What is known of a block of the space. -/
structure SourceBlock (m : Mem) (x : ℕ × BTree ℕ) : Prop where
  rep : Rep 40 m (m (x.1 + 24)) x.2
  data : Data 40 m x.2
  length : x.2.inorder.length < fuel

theorem SourceSpace.block {m : Mem} (h : SourceSpace m src bs) (hx : x ∈ bs) : SourceBlock m x :=
  ⟨(h.trees x hx).1, (h.trees x hx).2, length_lt_fuel (h.nodes x hx).1 (h.nodes x hx).2⟩

theorem begins_iff {b b' : ℕ} {F : Forking σ} {M₁ : Machine σ} (hb : b ≠ 0)
    (hadd : virtMemoryBlockAdd E dst (S.mem x.1) (S.mem (x.1 + 8)) M = .ok (b, M₁)) :
    Begins E dst S x M b' F ↔ b' = b ∧ F = ⟨List.replicate x.2.inorder.length (0, 0), M₁⟩ := by
  constructor
  · rintro ⟨h, -, hccl⟩
    obtain ⟨rfl, hM⟩ := Prod.mk.inj (Except.ok.inj (hadd.symm.trans h))
    cases F
    exact ⟨rfl, by rw [← hccl, hM]⟩
  · rintro ⟨rfl, rfl⟩
    exact ⟨hadd, hb, rfl⟩

/-- BLOCK: -1 is returned where the block cannot be added or the left spine cannot be copied. -/
theorem blockFork_neg (hx : SourceBlock S.mem x) :
    (∃ M', blockFork E dst src S x.1 M = .ok (-1, M')) ↔ Told E dst S x M := by
  match hadd : virtMemoryBlockAdd E dst (S.mem x.1) (S.mem (x.1 + 8)) M with
  | .error e =>
    rw [blockFork, hadd]
    refine ⟨fun ⟨M', h⟩ => (nomatch h), ?_⟩
    rintro (⟨M', h⟩ | ⟨b, F, M', ⟨F₀, ⟨h, -⟩, -⟩, -⟩) <;> cases hadd.symm.trans h
  | .ok (0, M₁) =>
    refine ⟨fun _ => .inl ⟨M₁, hadd⟩, fun _ => ⟨M₁, ?_⟩⟩
    rw [blockFork, hadd]
    rfl
  | .ok (b + 1, M₁) =>
    have hb : b + 1 ≠ 0 := Nat.succ_ne_zero b
    rw [blockFork_eq hx.rep hx.data hx.length hadd hb]
    constructor
    · rintro ⟨M', h⟩
      split at h
      · cases h
      split at h
      · cases h
      · next F hwalk =>
        match hfree : entryFreeAll E dst fuel (F.mach.mem (b + 1 + 24)) F.mach, h with
        | .ok M₂, _ =>
          exact .inr ⟨b + 1, F, M₂, ⟨_, (begins_iff hb hadd).mpr ⟨rfl, rfl⟩, walk_eq_false.mp hwalk⟩, hfree⟩
      · cases h
    · rintro (⟨M', h⟩ | ⟨b', F, M', ⟨F₀, hF, hvisit⟩, hfree⟩)
      · exact absurd (Prod.mk.inj (Except.ok.inj (hadd.symm.trans h))).1 hb
      obtain ⟨rfl, rfl⟩ := (begins_iff hb hadd).mp hF
      have hwalk := walk_eq_false.mpr hvisit
      have hT : x.2 ≠ .nil := by
        intro hnil
        rw [hnil] at hwalk
        cases hwalk
      refine ⟨freeNode E dst (b + 1) M', ?_⟩
      rw [if_neg hT, hwalk]
      dsimp only
      rw [hfree]
      rfl

/-- BLOCK: where 0 is returned, the walk over the entries returned 0. -/
theorem blockFork_zero (hx : SourceBlock S.mem x) (h : blockFork E dst src S x.1 M = .ok (0, M')) :
    ∃ b F F', Begins E dst S x M b F ∧ walk (copyEntry E dst b x.2.inorder.length S) x.2 F = .ok (true, F') := by
  match hadd : virtMemoryBlockAdd E dst (S.mem x.1) (S.mem (x.1 + 8)) M with
  | .error e =>
    rw [blockFork, hadd] at h
    cases h
  | .ok (0, M₁) =>
    rw [blockFork, hadd] at h
    cases h
  | .ok (b + 1, M₁) =>
    have hb : b + 1 ≠ 0 := Nat.succ_ne_zero b
    rw [blockFork_eq hx.rep hx.data hx.length hadd hb] at h
    split at h
    · cases h
    split at h
    · cases h
    · next F _ =>
      match entryFreeAll E dst fuel (F.mach.mem (b + 1 + 24)) F.mach, h with
      | .ok M₂, h => cases h
    · next F hwalk => exact ⟨b + 1, _, F, (begins_iff hb hadd).mpr ⟨rfl, rfl⟩, hwalk⟩

/-! ### The loop over the blocks -/

variable {k : ℕ} {head : ℕ}

variable (E dst src k M) in
/-- One round of the loop. -/
theorem forkBlocks_cons (hchain : Linked.Chain (nextBlock S.mem) (ptr head) (x.1 :: bs.map Prod.fst)) :
    Linked.Chain (nextBlock S.mem) (ptr (S.mem (x.1 + 16))) (bs.map Prod.fst) ∧
      forkBlocks E dst src S (k + 1) head M = (do
        let (ret, M) ← blockFork E dst src S x.1 M
        if ret < 0 then pure (-1, M) else forkBlocks E dst src S k (S.mem (x.1 + 16)) M) := by
  obtain ⟨hhead, hnext⟩ := hchain
  rw [ptr] at hhead
  split at hhead
  · cases hhead
  · next hne =>
    obtain rfl := Option.some.inj hhead
    refine ⟨hnext, ?_⟩
    rw [forkBlocks, if_neg hne]

theorem forkBlocks_nil (hchain : Linked.Chain (nextBlock S.mem) (ptr head) []) :
    forkBlocks E dst src S (k + 1) head M = .ok (0, M) := by
  rw [Linked.chain_nil, ptr] at hchain
  split at hchain
  · next hz =>
    rw [forkBlocks, if_pos hz]
    rfl
  · cases hchain

/-- LOOP: -1 is returned where a block that is reached gives -1. -/
theorem forkBlocks_neg (hchain : Linked.Chain (nextBlock S.mem) (ptr head) (bs.map Prod.fst)) (hk : bs.length < k)
    (hbs : ∀ x ∈ bs, SourceBlock S.mem x) : (∃ M', forkBlocks E dst src S k head M = .ok (-1, M')) ↔
      ∃ x M₁, Reached E dst src S bs M x M₁ ∧ Told E dst S x M₁ := by
  induction bs generalizing k head M with
  | nil =>
    obtain ⟨k, rfl⟩ := Nat.exists_eq_succ_of_ne_zero (Nat.ne_zero_of_lt hk)
    rw [forkBlocks_nil hchain]
    constructor
    · rintro ⟨M', h⟩
      cases h
    · rintro ⟨x, M₁, h, -⟩
      cases h
  | cons x bs ih =>
    obtain ⟨k, rfl⟩ := Nat.exists_eq_succ_of_ne_zero (Nat.ne_zero_of_lt hk)
    obtain ⟨hnext, hround⟩ := forkBlocks_cons E dst src M k hchain
    rw [hround]
    have ih' := fun M => ih (M := M) hnext (Nat.lt_of_succ_lt_succ hk) fun y hy => hbs y (mem_cons_of_mem _ hy)
    have hneg : (∃ M', blockFork E dst src S x.1 M = .ok (-1, M')) ↔ Told E dst S x M :=
      blockFork_neg (hbs x mem_cons_self)
    constructor
    · rintro ⟨M', h⟩
      obtain ⟨⟨ret, M₁⟩, hx, h⟩ := returned h
      rcases blockFork_ret hx with rfl | rfl
      · obtain ⟨y, M₂, hy, htold⟩ := (ih' M₁).mp ⟨M', h⟩
        exact ⟨y, M₂, .next hx hy, htold⟩
      · exact ⟨x, M, .here, hneg.mp ⟨M₁, hx⟩⟩
    · rintro ⟨y, M₂, hy, htold⟩
      cases hy with
      | here =>
        obtain ⟨M₁, hx⟩ := hneg.mpr htold
        exact ⟨M₁, by rw [hx]; rfl⟩
      | next hx hy =>
        obtain ⟨M', h⟩ := (ih' _).mpr ⟨y, M₂, hy, htold⟩
        exact ⟨M', by rw [hx]; exact h⟩

/-- LOOP: where 0 is returned, every block is reached and gives 0. -/
theorem forkBlocks_zero (hchain : Linked.Chain (nextBlock S.mem) (ptr head) (bs.map Prod.fst)) (hk : bs.length < k)
    (h : forkBlocks E dst src S k head M = .ok (0, M')) (hx : x ∈ bs) :
    ∃ M₁ M₂, Reached E dst src S bs M x M₁ ∧ blockFork E dst src S x.1 M₁ = .ok (0, M₂) := by
  induction bs generalizing k head M with
  | nil => cases hx
  | cons y bs ih =>
    obtain ⟨k, rfl⟩ := Nat.exists_eq_succ_of_ne_zero (Nat.ne_zero_of_lt hk)
    obtain ⟨hnext, hround⟩ := forkBlocks_cons E dst src M k hchain
    rw [hround] at h
    obtain ⟨⟨ret, M₁⟩, hy, h⟩ := returned h
    rcases blockFork_ret hy with rfl | rfl
    · rcases mem_cons.mp hx with rfl | hx
      · exact ⟨M, M₁, .here, hy⟩
      · obtain ⟨M₂, M₃, hreach, hfork⟩ := ih hnext (Nat.lt_of_succ_lt_succ hk) h hx
        exact ⟨M₂, M₃, .next hy hreach, hfork⟩
    · cases h

/-- A failure is reported, and 0 is returned only if every entry was copied, exactly when: if one of the
    entries of a block that is reached cannot be copied, in the order of the walk, then in a block that is
    reached one on the left spine cannot be copied, or the block cannot be added. -/
theorem fork_reports (h : SourceSpace S.mem src bs) : Reports E dst src S bs M ↔
    ((∃ x M₁ b F, Reached E dst src S bs M x M₁ ∧ Refuses E dst S x M₁ (preorder x.2) b F) →
      ∃ x M₁, Reached E dst src S bs M x M₁ ∧ Told E dst S x M₁) := by
  have hneg : (∃ M', virtMemoryFork E dst src S M = .ok (-1, M')) ↔ _ :=
    forkBlocks_neg h.chain h.length_lt fun x hx => h.block hx
  constructor
  · rintro ⟨hfailed, -⟩ ⟨x, M₁, b, F, hx, hrefuses⟩
    obtain ⟨e, he⟩ := exists_copies_false.mpr ⟨b, F, hrefuses⟩
    exact hneg.mp (hfailed ⟨x, M₁, e, hx, he⟩)
  · intro hcond
    have hfailed : (∃ x M₁ e, Reached E dst src S bs M x M₁ ∧ Copies E dst S x M₁ e false) →
        ∃ M', virtMemoryFork E dst src S M = .ok (-1, M') := by
      rintro ⟨x, M₁, e, hx, he⟩
      obtain ⟨b, F, hrefuses⟩ := exists_copies_false.mp ⟨e, he⟩
      exact hneg.mpr (hcond ⟨x, M₁, b, F, hx, hrefuses⟩)
    refine ⟨hfailed, fun M' hzero x hx e he => ?_⟩
    obtain ⟨M₁, M₂, hreach, hfork⟩ := forkBlocks_zero h.chain h.length_lt hzero hx
    obtain ⟨b, F, F', hF, hwalk⟩ := blockFork_zero (h.block hx) hfork
    -- the entries can all be copied, as 0 is not -1
    match hall : visitAll (copyEntry E dst b x.2.inorder.length S) (preorder x.2) F with
    | .error e =>
      rw [(walk_of_stop hall).1] at hwalk
      cases hwalk
    | .ok (false, F₁) =>
      obtain ⟨e', he'⟩ := exists_tries_false.mpr ⟨F₁, hall⟩
      obtain ⟨M₃, hret⟩ := hfailed ⟨x, M₁, e', hreach, b, F, hF, he'⟩
      cases hzero.symm.trans hret
    | .ok (true, F₁) => exact ⟨M₁, hreach, b, F, hF, (walk_of_visitAll hall).2.1 e he⟩

end Blocks

/-! ### A failure in a right subtree -/

/-- A space with one block and one page. -/
def onePage : St Supply :=
  after supply (after supply ⟨blank, [], []⟩ (.blockAdd 0x10000000 0x1fffffff)) (.allocPagesAddr 0x10000000 1 1 0)

/-- A space with one block and two pages; the entry of the second is the right child of that of the first. -/
def twoPages : St Supply := after supply onePage (.allocPagesAddr 0x10001000 1 1 0)

/-- A machine with a new space, and `n` nodes left. -/
def nodesLeft (n : ℕ) : Machine Supply := ⟨fun _ => 0, fun _ => ⟨[], 0, 0⟩, ⟨[], 2 ^ 32 - n, 0⟩⟩

theorem onePage_source : SourceSpace onePage.mach.mem 0x1000 [(0x10000, .node .nil 0x10080 .nil)] :=
  ⟨by decide +kernel, by simp, by decide +kernel, by simp⟩

theorem twoPages_source : SourceSpace twoPages.mach.mem 0x1000
    [(0x10000, .node .nil 0x10080 (.node .nil 0x101c0 .nil))] :=
  ⟨by decide +kernel, by simp, by decide +kernel, by simp⟩

/-- The state in which the entries of the block `x` are copied. -/
def begun (x : ℕ × BTree ℕ) (S M : Machine Supply) : Forking Supply :=
  match virtMemoryBlockAdd supply 0x2000 (S.mem x.1) (S.mem (x.1 + 8)) M with
  | .ok (_, M) => ⟨List.replicate x.2.inorder.length (0, 0), M⟩
  | .error _ => ⟨[], M⟩

theorem begins_begun {x : ℕ × BTree ℕ} {S M : Machine Supply} {b b' : ℕ} {F : Forking Supply} (hb : b ≠ 0)
    (h : (virtMemoryBlockAdd supply 0x2000 (S.mem x.1) (S.mem (x.1 + 8)) M).toOption.map Prod.fst = some b) :
    Begins supply 0x2000 S x M b' F ↔ b' = b ∧ F = begun x S M := by
  obtain ⟨M', hM⟩ := returned_fst h
  rw [begins_iff hb hM, begun, hM]

/-- With seven nodes the copy of one page is made. -/
theorem fork_reports_one_page : SourceSpace onePage.mach.mem 0x1000 [(0x10000, .node .nil 0x10080 .nil)] ∧
    Reports supply 0x2000 0x1000 onePage.mach [(0x10000, .node .nil 0x10080 .nil)] (nodesLeft 7) := by
  refine ⟨onePage_source, (fork_reports onePage_source).mpr ?_⟩
  rintro ⟨x, M₁, b, F, hreach, F₀, hF, hvisit⟩
  cases hreach with
  | here =>
    obtain ⟨rfl, rfl⟩ := (begins_begun (b := 0x400000fe40) (by norm_num) (by decide +kernel)).mp hF
    obtain ⟨F', hcopied⟩ := returned_fst (x := visitAll (copyEntry supply 0x2000 0x400000fe40 1 onePage.mach) [0x10080]
      (begun (0x10000, .node .nil 0x10080 .nil) onePage.mach (nodesLeft 7))) (a := true) (by decide +kernel)
    cases hcopied.symm.trans hvisit
  | next _ h => cases h

/-- No node is left for the second page: its entry is not copied, and 0 is returned. -/
theorem fork_failure_lost : SourceSpace twoPages.mach.mem 0x1000
      [(0x10000, .node .nil 0x10080 (.node .nil 0x101c0 .nil))] ∧
    (∃ M', virtMemoryFork supply 0x2000 0x1000 twoPages.mach (nodesLeft 7) = .ok (0, M')) ∧
    ∃ e, Copies supply 0x2000 twoPages.mach (0x10000, .node .nil 0x10080 (.node .nil 0x101c0 .nil)) (nodesLeft 7)
      e false := by
  refine ⟨twoPages_source, returned_fst (by decide +kernel), exists_copies_false.mpr ?_⟩
  obtain ⟨F, hF⟩ := returned_fst (x := visitAll (copyEntry supply 0x2000 0x400000fe40 2 twoPages.mach) [0x10080, 0x101c0]
    (begun (0x10000, .node .nil 0x10080 (.node .nil 0x101c0 .nil)) twoPages.mach (nodesLeft 7))) (a := false)
    (by decide +kernel)
  exact ⟨0x400000fe40, F, _, (begins_begun (by norm_num) (by decide +kernel)).mpr ⟨rfl, rfl⟩, hF⟩

end Advos.Vmem
