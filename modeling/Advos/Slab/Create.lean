import Advos.Slab.Owned

/-! Creating caches, and every state the allocator can get into.

    `memory_slab_init` makes the cache of the caches; its first object is that cache itself.
    `memory_slab_create_cache` takes an object from it for the new cache, makes one slab for the new
    cache and hangs it into the tree:

        slab_cache ─▶ object c ──▶ name, size, full ─▶ new slab            (two page allocations:
                                    └── in the tree, below the last          one for slab_cache when
                                        cache that was compared              it is out of objects,
                                                                             one for the new slab)

    The second answer of the page allocator is not looked at before the slab is written to, and the
    name is cut off after 63 bytes without a word. -/

namespace Advos.Slab
open Linked Word Function List

/-! ### The functions -/

/-- A string: the bytes before its NUL. -/
abbrev CString := { s : List UInt8 // 0 ∉ s }

/-- `MEMORY_SLAB_CACHE_NAME`, "slab_cache". -/
def slabCacheName : CString := ⟨[115, 108, 97, 98, 95, 99, 97, 99, 104, 101], by decide⟩

/-- `sizeof(memory_slab_cache_t)`. -/
def sizeofCache : ℕ := 112

/-- What `kstrlcpy` leaves in a buffer of `n` bytes. -/
def kstrlcpy (src : List UInt8) (n : ℕ) : List UInt8 := src.take (n - 1)

/-- `_add_slab_cache`; no tree stands for -1. -/
def addSlabCache (cache : ℕ → Cache) (n : ℕ) : CacheTree → Option CacheTree
  | .nil => some (.node .nil n .nil)
  | .node left c right =>
    if kstrncmp nameMax (cache c).name (cache n).name = 0 then none
    else if kstrncmp nameMax (cache c).name (cache n).name < 0 then
      (addSlabCache cache n left).map fun left => .node left c right
    else (addSlabCache cache n right).map fun right => .node left c right

/-- The part of `memory_slab_create_cache` that fills in the new cache `c`; `second` is what
    `memory_alloc_pages` answers to its slab. -/
def fillCache (second : Option ℕ) (name : List UInt8) (size c : ℕ) (a : Allocator) :
    Except Stop (ℤ × Allocator) := do
  let a := a.setCache c ⟨kstrlcpy name nameMax, size, none, none, none⟩
  match ← newSlab second size a with
  -- `s->cache = cache` with `s` NULL: page 0 is not mapped in the kernel
  | (none, _) => .error .panic
  | (some s, a) =>
    let a := a.setHdr s { a.hdr s with cache := some c }
    let a := a.setCache c { a.cache c with fullHead := some s }
    match addSlabCache a.cache c a.root with
    | none => .error .panic
    | some root => pure (0, { a with root := root })

/-- `memory_slab_create_cache` between lock and unlock; `first` is what `memory_alloc_pages` answers
    when `slab_cache` needs a slab. -/
def createCache (first second : Option ℕ) (name : List UInt8) (size : ℕ) (a : Allocator) :
    Except Stop (ℤ × Allocator) :=
  match findSlabCache a.cache a.root name with
  | some _ => pure (-1, a)
  | none => do
    match ← slabAlloc first slabCacheName a with
    | (none, a) => pure (-1, a)
    | (some c, a) => fillCache second name size c a

/-- `memory_slab_create_cache`. -/
def memorySlabCreateCache (first second : Option ℕ) (name : List UInt8) (size : ℕ) (a : Allocator) :
    Except Stop (ℤ × Allocator) := do
  let a ← spinLock a
  let (ret, a) ← createCache first second name size a
  pure (ret, spinUnlock a)

/-- `_slab_cache_init`. -/
def slabCacheInit (pages : Option ℕ) (a : Allocator) : Except Stop (ℤ × Allocator) := do
  match ← newSlab pages sizeofCache a with
  | (none, a) => pure (-1, a)
  | (some s, a) =>
    let c := (a.hdr s).objHead
    let a := a.setHdr s { a.hdr s with
      marks := (a.hdr s).marks.set 0 false, nused := (a.hdr s).nused + 1, cache := some c }
    let a := a.setCache c ⟨kstrlcpy slabCacheName nameMax, sizeofCache, some s, none, none⟩
    match addSlabCache a.cache c a.root with
    | none => .error .panic
    | some root => pure (0, { a with root := root })

/-- `memory_slab_init`. -/
def memorySlabInit (pages : Option ℕ) (a : Allocator) : Except Stop (ℤ × Allocator) := do
  let (ret, a) ← slabCacheInit pages { a with lock := true, root := .nil }
  if ret < 0 then pure (-1, a) else pure (0, { a with lock := false })

/-! ### Runs on all caches -/

/-- What the page allocator may answer to the two allocations of a creation. -/
structure Grants (a : Allocator) (first second : Option ℕ) : Prop where
  refill : ∀ p, first = some p → FreshPages a p
  slab : ∀ q, second = some q → FreshPages a q
  apart : ∀ p q, first = some p → second = some q → Apart q p

/-- One call that returns. Objects of `slab_cache` are taken by `memory_slab_create_cache` only, and
    never released; the other caches are used in any way. -/
inductive Call : Allocator → Allocator → Prop
  | create (a : Allocator) (first second : Option ℕ) (name : CString) (size : ℕ) (ret : ℤ)
      (a' : Allocator) (hg : Grants a first second)
      (h : memorySlabCreateCache first second name size a = .ok (ret, a')) : Call a a'
  | alloc (a : Allocator) (pages : Option ℕ) (name : CString) (hname : name ≠ slabCacheName)
      (obj : Option ℕ) (a' : Allocator) (hp : ∀ p, pages = some p → FreshPages a p)
      (h : memorySlabAlloc pages name a = .ok (obj, a')) : Call a a'
  | free (a : Allocator) (name : CString) (hname : name ≠ slabCacheName) (obj : ℕ) (ret : ℤ)
      (a' : Allocator) (h : memorySlabFree name obj a = .ok (ret, a')) : Call a a'

/-- A state of the allocator: `memory_slab_init` returned 0, then any calls. -/
def Reaches (a : Allocator) : Prop :=
  ∃ a0 p a1, a0.slabs = [] ∧ p + slabBytes ≤ 2 ^ 64 ∧ memorySlabInit (some p) a0 = .ok (0, a1) ∧
    Relation.ReflTransGen Call a1 a

/-! ### Names -/

theorem eq_of_bmod_eq {x y : ℕ} (hx : x < 256) (hy : y < 256) (h : Int.bmod x 256 = Int.bmod y 256) :
    x = y := by
  have hmod := congrArg (fun z : ℤ => z % ((256 : ℕ) : ℤ)) h
  simp only [Int.bmod_emod] at hmod
  omega

theorem charVal_inj {x y : UInt8} (h : charVal x = charVal y) : x = y :=
  UInt8.toNat_inj.mp (eq_of_bmod_eq x.toNat_lt y.toNat_lt h)

/-- The loop of `kstrncmp` on one more byte, the NUL of a string that ends included. -/
theorem kstrncmp_succ (n : ℕ) (x y : List UInt8) (h : x ≠ [] ∨ y ≠ []) : kstrncmp (n + 1) x y =
    if charVal (x.headD 0) = charVal (y.headD 0) then kstrncmp n x.tail y.tail
    else charVal (x.headD 0) - charVal (y.headD 0) := by
  have hstep : kstrncmp (n + 1) x y = if charVal (x.headD 0) - charVal (y.headD 0) ≠ 0 then
      charVal (x.headD 0) - charVal (y.headD 0) else kstrncmp n x.tail y.tail := by
    cases x with
    | nil =>
      cases y with
      | nil => simp at h
      | cons b y => rfl
    | cons a x => rfl
  rw [hstep]
  simp only [ne_eq, sub_eq_zero, ite_not]

theorem kstrncmp_self (n : ℕ) (s : List UInt8) : kstrncmp n s s = 0 := by
  induction n generalizing s with
  | zero => rfl
  | succ n ih =>
    cases s with
    | nil => rfl
    | cons x s => rw [kstrncmp_succ n _ _ (.inl (by simp)), if_pos rfl]; exact ih s

theorem kstrncmp_eq_zero {n : ℕ} {x y : List UInt8} (hx : 0 ∉ x) (hy : 0 ∉ y)
    (h : kstrncmp n x y = 0) : x.take n = y.take n := by
  induction n generalizing x y with
  | zero => simp
  | succ n ih =>
    by_cases hnil : x = [] ∧ y = []
    · rw [hnil.1, hnil.2]
    rw [kstrncmp_succ n x y (by tauto)] at h
    split at h
    · rename_i heq
      have heq := charVal_inj heq
      -- a string that ends has NUL here, the other one a byte that is not
      cases x with
      | nil =>
        cases y with
        | nil => rfl
        | cons b y => exact absurd (mem_cons.mpr (.inl heq)) hy
      | cons a x =>
        cases y with
        | nil => exact absurd (mem_cons.mpr (.inl heq.symm)) hx
        | cons b y =>
          rw [mem_cons, not_or] at hx hy
          rw [take_succ_cons, take_succ_cons, ih hx.2 hy.2 h]
          exact congrArg (· :: _) heq
    · rename_i hne
      exact absurd (sub_eq_zero.mp h) hne

theorem eq_of_kstrncmp {x y : List UInt8} (hx : 0 ∉ x) (hy : 0 ∉ y) (hlen : x.length < nameMax)
    (h : kstrncmp nameMax x y = 0) : y = x := by
  have heq := kstrncmp_eq_zero hx hy h
  rw [take_of_length_le (le_of_lt hlen)] at heq
  have hl := congrArg List.length heq
  rw [length_take] at hl
  rw [heq, take_of_length_le (by omega)]

/-! ### The tree -/

section Tree
variable {cache cache' : ℕ → Cache} {n c : ℕ} {name : List UInt8}

theorem mem_caches_add : ∀ {t t' : CacheTree}, addSlabCache cache n t = some t' → ∀ x,
    x ∈ t'.caches ↔ x = n ∨ x ∈ t.caches
  | .nil, t', h, x => by
      cases h
      simp [CacheTree.caches]
  | .node left c right, t', h, x => by
      rw [addSlabCache] at h
      split at h
      · cases h
      · split at h
        · obtain ⟨l, hl, rfl⟩ := Option.map_eq_some_iff.mp h
          simp only [CacheTree.caches, mem_append, mem_cons, mem_caches_add hl]
          tauto
        · obtain ⟨r, hr, rfl⟩ := Option.map_eq_some_iff.mp h
          simp only [CacheTree.caches, mem_append, mem_cons, mem_caches_add hr]
          tauto

theorem find_add_self : ∀ {t : CacheTree}, findSlabCache cache t (cache n).name = none →
    ∃ t', addSlabCache cache n t = some t' ∧ findSlabCache cache t' (cache n).name = some n
  | .nil, _ => ⟨_, rfl, by rw [findSlabCache, if_pos (kstrncmp_self _ _)]⟩
  | .node left c right, h => by
      rw [findSlabCache] at h
      rw [addSlabCache]
      split at h
      · cases h
      · rename_i hne
        split at h
        · rename_i hlt
          obtain ⟨t', ht, hf⟩ := find_add_self h
          refine ⟨.node t' c right, by rw [if_neg hne, if_pos hlt, ht]; rfl, ?_⟩
          rw [findSlabCache, if_neg hne, if_pos hlt, hf]
        · rename_i hlt
          obtain ⟨t', ht, hf⟩ := find_add_self h
          refine ⟨.node left c t', by rw [if_neg hne, if_neg hlt, ht]; rfl, ?_⟩
          rw [findSlabCache, if_neg hne, if_neg hlt, hf]

theorem find_add_of_some : ∀ {t t' : CacheTree}, findSlabCache cache t name = some c →
    addSlabCache cache n t = some t' → findSlabCache cache t' name = some c
  | .node left x right, t', h, hadd => by
      rw [addSlabCache] at hadd
      split at hadd
      · cases hadd
      · split at hadd
        · obtain ⟨l, hl, rfl⟩ := Option.map_eq_some_iff.mp hadd
          unfold findSlabCache at h ⊢
          split_ifs at h ⊢ with hz hlt
          · exact h
          · exact find_add_of_some h hl
          · exact h
        · obtain ⟨r, hr, rfl⟩ := Option.map_eq_some_iff.mp hadd
          unfold findSlabCache at h ⊢
          split_ifs at h ⊢ with hz hlt
          · exact h
          · exact h
          · exact find_add_of_some h hr

theorem find_congr_mem : ∀ {t : CacheTree}, (∀ x ∈ t.caches, (cache' x).name = (cache x).name) →
    findSlabCache cache' t name = findSlabCache cache t name
  | .nil, _ => rfl
  | .node left x right, h => by
      simp only [CacheTree.caches, mem_append, mem_cons] at h
      rw [findSlabCache, findSlabCache, h x (.inr (.inl rfl)), find_congr_mem fun y hy => h y (.inl hy),
        find_congr_mem fun y hy => h y (.inr (.inr hy))]

end Tree

/-! ### States -/

/-- What holds between calls: `slab_cache`, at `c0`, is in order, its objects `out` are in use and
    include every cache of the tree, and the lists of each cache run through its own slabs. -/
structure Ready (a : Allocator) (c0 : ℕ) (out : List ℕ) : Prop where
  lists : ∃ P F E, Core slabCacheName c0 a out P F E ∧ Sorted a P F E
  full : (a.cache c0).fullHead = none
  held : ∀ c ∈ a.root.caches, c ∈ out
  names : ∀ c ∈ a.root.caches, 0 ∉ (a.cache c).name ∧ (a.cache c).name.length < nameMax
  owned : Owned a

section States
variable {a a' : Allocator} {c c0 : ℕ} {out P F E : List ℕ} {name : List UInt8}

/-- The lists of a cache are in order as long as its heads and the headers of its slabs stay. -/
theorem Core.frame (h : Core name c a out P F E)
    (hfound : findSlabCache a'.cache a'.root name = some c) (hcache : a'.cache c = a.cache c)
    (hhdr : ∀ s ∈ P ++ F ++ E, a'.hdr s = a.hdr s) (hslabs : slabsOf a' c = slabsOf a c)
    (ho : Owned a') : Core name c a' out P F E := by
  simp only [mem_append] at hhdr
  refine ⟨hfound, ?_, ?_, ?_, ?_, ?_, ?_, ho.pages, ho.apart, fun s hs => ?_, fun obj hobj => ?_,
    h.out_nodup⟩
  · rw [hcache]; exact h.size_pos
  · rw [hcache]; exact h.size_lt
  · rw [hcache]
    exact h.partialC.congr fun s hs => congrArg Hdr.next (hhdr s (.inl (.inl hs)))
  · rw [hcache]
    exact h.fullC.congr fun s hs => congrArg Hdr.next (hhdr s (.inl (.inr hs)))
  · rw [hcache]
    exact h.emptyC.congr fun s hs => congrArg Hdr.next (hhdr s (.inr hs))
  · rw [hslabs]; exact h.members
  · rw [hcache, hhdr s (by simpa [or_assoc] using hs)]
    exact h.slab s hs
  · obtain ⟨s, hs, i, hu⟩ := h.used obj hobj
    refine ⟨s, hs, i, ?_⟩
    rw [hcache, InUse, hhdr s (by simpa [or_assoc] using hs)]
    exact hu

theorem Sorted.frame (h : Sorted a P F E) (hhdr : ∀ s ∈ P ++ F ++ E, a'.hdr s = a.hdr s) :
    Sorted a' P F E :=
  h.congr fun s hs => by rw [hhdr s hs]; exact ⟨rfl, rfl⟩

theorem Moved.slabsOf_other (h : Moved c a a') (hne : c ≠ c0) : slabsOf a' c0 = slabsOf a c0 := by
  obtain ⟨new, heq, hnew⟩ := h.slabs
  unfold slabsOf
  rw [heq, filter_append]
  have hnone : new.filter (fun s => decide ((a'.hdr s).cache = some c0)) = [] := by
    refine filter_eq_nil_iff.mpr fun s hs => ?_
    rw [hnew s hs]
    simpa using hne
  rw [hnone, nil_append]
  refine filter_congr fun s hs => ?_
  rw [h.owner s hs]

namespace Ready
variable (h : Ready a c0 out)
include h

theorem moved (hm : Moved c a a') (hne : c ≠ c0) : Ready a' c0 out := by
  obtain ⟨P, F, E, hcore, hsorted⟩ := h.lists
  have hcache : a'.cache c0 = a.cache c0 := hm.others c0 hne.symm
  have hhdr : ∀ s ∈ P ++ F ++ E, a'.hdr s = a.hdr s := by
    intro s hs
    obtain ⟨hmem, hown⟩ := hcore.mem_slabs hs
    exact hm.hdrs s hmem (by rw [hown]; simpa using hne.symm)
  refine ⟨⟨P, F, E, ?_, hsorted.frame hhdr⟩, by rw [hcache]; exact h.full, ?_, ?_, hm.owned⟩
  · exact hcore.frame ((hm.find _).trans hcore.found) hcache hhdr (hm.slabsOf_other hne) hm.owned
  · rw [hm.root]; exact h.held
  · rw [hm.root]
    intro x hx
    rw [hm.names]
    exact h.names x hx

theorem setLock (b : Bool) : Ready { a with lock := b } c0 out := by
  obtain ⟨P, F, E, hcore, hsorted⟩ := h.lists
  exact ⟨⟨P, F, E, hcore.setLock b, hsorted.congr fun _ _ => ⟨rfl, rfl⟩⟩, h.full, h.held, h.names,
    h.owned.setLock b⟩

theorem found : findSlabCache a.cache a.root slabCacheName = some c0 := by
  obtain ⟨P, F, E, hcore, -⟩ := h.lists
  exact hcore.found

theorem find_inj {n1 n2 : CString} (h1 : findSlabCache a.cache a.root n1 = some c)
    (h2 : findSlabCache a.cache a.root n2 = some c) : n1 = n2 := by
  obtain ⟨hmem, hz1⟩ := findSlabCache_mem h1
  obtain ⟨-, hz2⟩ := findSlabCache_mem h2
  obtain ⟨hnul, hlen⟩ := h.names c hmem
  have hname1 := eq_of_kstrncmp hnul n1.2 hlen hz1
  have hname2 := eq_of_kstrncmp hnul n2.2 hlen hz2
  exact Subtype.ext (hname1.trans hname2.symm)

theorem find_ne {name : CString} (hname : name ≠ slabCacheName)
    (hfind : findSlabCache a.cache a.root name = some c) : c ≠ c0 := by
  rintro rfl
  exact hname (h.find_inj hfind h.found)

end Ready

theorem locked_returned {β : Type} {f : Allocator → Except Stop (β × Allocator)} {r : β}
    (heq : (do let a ← spinLock a; let (r, a) ← f a; pure (r, spinUnlock a)) = .ok (r, a')) :
    a.lock = false ∧ ∃ a1, f { a with lock := true } = .ok (r, a1) ∧ a' = { a1 with lock := false } := by
  obtain ⟨al, hlock, heq⟩ := returned heq
  obtain ⟨⟨r1, a1⟩, hcall, heq⟩ := returned heq
  cases heq
  unfold spinLock at hlock
  split at hlock
  · cases hlock
  · rename_i hfree
    cases hlock
    exact ⟨by simpa using hfree, a1, hcall, rfl⟩

variable {a1 : Allocator}

/-- A call that locks returns when what it does under the lock does. -/
theorem returns_locked {β : Type} {f : Allocator → Except Stop (β × Allocator)} {r : β} (hlock : a.lock = false)
    (hf : f { a with lock := true } = .ok (r, a1)) :
    (do let a ← spinLock a; let (r, a) ← f a; pure (r, spinUnlock a)) =
      .ok (r, { a1 with lock := false }) := by
  simp only [spinLock, hlock, bind, Except.bind, Bool.false_eq_true, if_false, pure, Except.pure, hf]
  rfl

theorem Moved.unlock (h : Moved c { a with lock := true } a') : Moved c a { a' with lock := false } :=
  ⟨h.root, h.others, h.name, h.size, h.hdrs, h.owner, h.slabs, h.owned.setLock false⟩

/-- A call with a name that is not in the tree leaves every cache alone. -/
theorem Moved.unlocked (h : Owned a) : Moved c a { a with lock := false } :=
  ⟨rfl, fun _ _ => rfl, rfl, rfl, fun _ _ _ => rfl, fun _ _ => rfl, ⟨[], rfl, by simp⟩,
    h.setLock false⟩

theorem alloc_moved (h : Ready a c0 out) {pages : Option ℕ} {name : CString}
    (hname : name ≠ slabCacheName) (hp : ∀ p, pages = some p → FreshPages a p) {r : Option ℕ}
    (heq : memorySlabAlloc pages name a = .ok (r, a')) : a'.lock = false ∧ ∃ c, c ≠ c0 ∧ Moved c a a' := by
  obtain ⟨-, a1, hcall, rfl⟩ := locked_returned heq
  refine ⟨rfl, ?_⟩
  cases hfind : findSlabCache a.cache a.root name with
  | none =>
    simp only [slabAlloc, hfind] at hcall
    cases hcall
    exact ⟨c0 + 1, Nat.succ_ne_self c0, Moved.unlocked h.owned⟩
  | some c =>
    exact ⟨c, h.find_ne hname hfind,
      (slabAlloc_moved (h.owned.setLock true) hp hfind hcall).unlock⟩

theorem free_moved (h : Ready a c0 out) {name : CString} (hname : name ≠ slabCacheName) {obj : ℕ}
    {ret : ℤ} (heq : memorySlabFree name obj a = .ok (ret, a')) :
    a'.lock = false ∧ ∃ c, c ≠ c0 ∧ Moved c a a' := by
  obtain ⟨-, a1, hcall, rfl⟩ := locked_returned heq
  refine ⟨rfl, ?_⟩
  cases hfind : findSlabCache a.cache a.root name with
  | none =>
    simp only [slabFree, hfind] at hcall
    cases hcall
    exact ⟨c0 + 1, Nat.succ_ne_self c0, Moved.unlocked h.owned⟩
  | some c =>
    exact ⟨c, h.find_ne hname hfind, (slabFree_moved (h.owned.setLock true) hfind hcall).unlock⟩

/-! ### An object for the new cache -/

/-- `slab_cache` has neither a partly used nor an unused slab. -/
def NeedsSlab (a : Allocator) : Prop :=
  ∃ c, findSlabCache a.cache a.root slabCacheName = some c ∧ (a.cache c).partialHead = none ∧
    (a.cache c).fullHead = none

theorem Ready.needsSlab_iff (h : Ready a c0 out) : NeedsSlab a ↔ (a.cache c0).partialHead = none := by
  constructor
  · rintro ⟨c, hc, hp, -⟩
    rw [h.found] at hc
    rwa [Option.some.inj hc]
  · exact fun hp => ⟨c0, h.found, hp, h.full⟩

theorem settle_cache_full (s : ℕ) : ((settle c s a).cache c).fullHead = (a.cache c).fullHead := by
  unfold settle
  split
  · simp [Allocator.setCache, Allocator.setHdr]
  · rfl

theorem takeObject_cache (s : ℕ) : (takeObject c s a).2.cache = a.cache := by
  unfold takeObject
  split <;> rfl

theorem slabAlloc_full (hfind : findSlabCache a.cache a.root name = some c)
    (hf : (a.cache c).fullHead = none) {pages r : Option ℕ}
    (heq : slabAlloc pages name a = .ok (r, a')) : (a'.cache c).fullHead = none := by
  rw [slabAlloc, hfind] at heq
  obtain ⟨⟨b, a1⟩, hensure, heq⟩ := returned heq
  rcases ensureSlab_cases hensure with ⟨rfl, hb⟩ | ⟨p, -, rfl, rfl⟩
  · cases b with
    | false =>
      cases heq
      exact hf
    | true =>
      obtain ⟨a2, s, htake, -, -, rfl⟩ := allocObject_cases heq
      rw [settle_cache_full, takeObject_cache]
      rcases takeFull_cases htake with ⟨rfl, -⟩ | ⟨s, -, hs, -⟩
      · exact hf
      · rw [hf] at hs; cases hs
  · obtain ⟨a2, s, htake, -, -, rfl⟩ := allocObject_cases heq
    rw [settle_cache_full, takeObject_cache]
    rcases takeFull_cases htake with ⟨-, s, hs⟩ | ⟨s, -, hs, rfl⟩
    · rw [cache_setHeads] at hs; cases hs
    · rw [cache_setHeads] at hs ⊢
      cases hs
      show ((addSlab a c p).hdr p).next = none
      rw [hdr_addSlab_self]
      rfl

/-- An allocation makes at most one slab, on the pages it is given. -/
theorem slabAlloc_slabs {pages r : Option ℕ} (heq : slabAlloc pages name a = .ok (r, a')) :
    ∀ s ∈ a'.slabs, s ∈ a.slabs ∨ pages = some s := by
  have hrest : ∀ {a1 : Allocator} {r : Option ℕ} {c : ℕ}, allocObject c a1 = .ok (r, a') →
      a'.slabs = a1.slabs := by
    intro a1 r c heq
    obtain ⟨a2, s, htake, -, -, rfl⟩ := allocObject_cases heq
    have h1 : a2.slabs = a1.slabs := by
      rcases takeFull_cases htake with ⟨rfl, -⟩ | ⟨s, -, -, rfl⟩ <;> rfl
    rw [← h1]
    unfold settle takeObject
    split <;> split <;> rfl
  unfold slabAlloc at heq
  split at heq
  · cases heq
    exact fun s hs => .inl hs
  · obtain ⟨⟨b, a1⟩, hensure, heq⟩ := returned heq
    rcases ensureSlab_cases hensure with ⟨rfl, hb⟩ | ⟨p, rfl, rfl, rfl⟩
    · cases b with
      | false =>
        cases heq
        exact fun s hs => .inl hs
      | true =>
        rw [hrest heq]
        exact fun s hs => .inl hs
    · rw [hrest heq]
      intro s hs
      rcases mem_cons.mp hs with rfl | hs
      · exact .inr rfl
      · exact .inl hs

/-- The object for a new cache: NULL, with nothing changed, exactly when `slab_cache` needs a slab and
    gets none. -/
theorem slabAlloc_cache (h : Ready a c0 out) {first : Option ℕ}
    (hp : ∀ p, first = some p → FreshPages a p) :
    (NeedsSlab a ∧ first = none ∧ slabAlloc first slabCacheName a = .ok (none, a)) ∨
    ¬ (NeedsSlab a ∧ first = none) ∧ ∃ c a1, c ∉ out ∧
      slabAlloc first slabCacheName a = .ok (some c, a1) ∧ Moved c0 a a1 ∧
      (a1.cache c0).fullHead = none ∧
      ∃ P F E, Core slabCacheName c0 a1 (c :: out) P F E ∧ Sorted a1 P F E := by
  obtain ⟨P, F, E, hcore, hsorted⟩ := h.lists
  have hfull := h.full
  have hok : ¬ TwoFull c0 a := by
    rintro ⟨-, s, hs, -⟩
    rw [hfull] at hs
    cases hs
  rcases slabAlloc_spec hcore hsorted hok hp with
    ⟨rfl, rfl, -, heq⟩ | ⟨c, a1, P', F', E', hnot, heq, hcore', hsorted'⟩
  · exact .inl ⟨h.needsSlab_iff.mpr hcore.partialC, rfl, heq⟩
  · have hm := slabAlloc_moved h.owned hp hcore.found heq
    refine .inr ⟨?_, c, a1, hnot, heq, hm, slabAlloc_full hcore.found hfull heq, P', F', E', hcore',
      hsorted'⟩
    rintro ⟨hneeds, rfl⟩
    have hpart := h.needsSlab_iff.mp hneeds
    simp [slabAlloc, hcore.found, ensureSlab, hpart, hfull, newSlab, bind, Except.bind, pure,
      Except.pure] at heq

/-! ### The new cache -/

/-- The allocator with a new cache `c` and its first slab `q`, and the tree `root`. -/
def withCache (a : Allocator) (c q : ℕ) (name : List UInt8) (size : ℕ) (root : CacheTree) : Allocator :=
  { a with
    root := root
    cache := Function.update a.cache c ⟨name, size, none, some q, none⟩
    hdr := Function.update a.hdr q { freshHdr q size with cache := some c }
    slabs := q :: a.slabs }

section WithCache
variable {q size : ℕ} {root : CacheTree}

theorem cache_withCache_self :
    (withCache a c q name size root).cache c = ⟨name, size, none, some q, none⟩ :=
  update_self ..

theorem cache_withCache_of_ne {x : ℕ} (h : x ≠ c) :
    (withCache a c q name size root).cache x = a.cache x :=
  update_of_ne h _ _

theorem hdr_withCache_self :
    (withCache a c q name size root).hdr q = { freshHdr q size with cache := some c } :=
  update_self ..

theorem hdr_withCache_of_fresh {s : ℕ} (hq : FreshPages a q) (hs : s ∈ a.slabs) :
    (withCache a c q name size root).hdr s = a.hdr s := by
  have hsq : s ≠ q := by
    rintro rfl
    exact not_apart_self s (hq.2 s hs)
  exact update_of_ne hsq _ _

end WithCache

theorem fillCache_cases {second : Option ℕ} {size : ℕ} {ret : ℤ}
    (heq : fillCache second name size c a = .ok (ret, a')) : ret = 0 ∧ add64 size 1 ≠ 0 ∧
      ∃ q root, second = some q ∧
        a' = withCache a c q (kstrlcpy name nameMax) size root ∧
        addSlabCache (withCache a c q (kstrlcpy name nameMax) size root).cache c a.root = some root := by
  unfold fillCache at heq
  cases second with
  | none => cases heq
  | some q =>
    by_cases hsize : add64 size 1 = 0
    · simp [newSlab, hsize, bind, Except.bind] at heq
    · simp only [newSlab, hsize, if_false, bind, Except.bind, Allocator.setHdr, Allocator.setCache,
        update_self, update_idem] at heq
      split at heq
      · cases heq
      · rename_i root hroot
        cases heq
        exact ⟨rfl, hsize, q, root, rfl, rfl, hroot⟩

theorem fillCache_eq {q size : ℕ} {root : CacheTree} (hsize : add64 size 1 ≠ 0)
    (hroot : addSlabCache (withCache a c q (kstrlcpy name nameMax) size root).cache c a.root =
      some root) :
    fillCache (some q) name size c a = .ok (0, withCache a c q (kstrlcpy name nameMax) size root) := by
  unfold withCache at hroot
  simp only [fillCache, newSlab, hsize, if_false, bind, Except.bind, Allocator.setHdr,
    Allocator.setCache, update_self, update_idem, hroot]
  rfl

theorem Ready.install (h : Ready a c0 out) {q size : ℕ} {root : CacheTree} {stored : List UInt8}
    (hm : Moved c0 a a1) (hc : c ∉ out) (hfull : (a1.cache c0).fullHead = none)
    (hlists : ∃ P F E, Core slabCacheName c0 a1 (c :: out) P F E ∧ Sorted a1 P F E) (hq : FreshPages a1 q)
    (hnul : 0 ∉ stored) (hlen : stored.length < nameMax)
    (hroot : addSlabCache (withCache a1 c q stored size root).cache c a1.root = some root) :
    Ready (withCache a1 c q stored size root) c0 (c :: out) := by
  have hold : ∀ x ∈ a1.root.caches, x ∈ out ∧ x ≠ c := by
    intro x hx
    rw [hm.root] at hx
    exact ⟨h.held x hx, fun heq => hc (heq ▸ h.held x hx)⟩
  have hcaches := mem_caches_add hroot
  have hself : (withCache a1 c q stored size root).cache c = ⟨stored, size, none, some q, none⟩ :=
    cache_withCache_self
  have hcache : ∀ x, x ≠ c → (withCache a1 c q stored size root).cache x = a1.cache x :=
    fun x => cache_withCache_of_ne
  have hnew : (withCache a1 c q stored size root).hdr q = { freshHdr q size with cache := some c } :=
    hdr_withCache_self
  have hhdr : ∀ s ∈ a1.slabs, (withCache a1 c q stored size root).hdr s = a1.hdr s :=
    fun s => hdr_withCache_of_fresh hq
  have hown : ∀ {x : ℕ} {link : Option ℕ}, Own a1 x link →
      Own (withCache a1 c q stored size root) x link := by
    intro x link hl t ht
    obtain ⟨hmem, hcx⟩ := hl t ht
    exact ⟨mem_cons_of_mem _ hmem, by rw [hhdr t hmem]; exact hcx⟩
  have howned : Owned (withCache a1 c q stored size root) := by
    refine ⟨fun x hx => ?_, fun s hs x hx => ?_, fun s hs => ?_, fun s hs => ?_,
      pairwise_cons.mpr ⟨hq.2, hm.owned.apart⟩⟩
    · rcases (hcaches x).mp hx with rfl | hx
      · rw [hself]
        refine ⟨own_none, ?_, own_none⟩
        rintro t ⟨⟩
        exact ⟨mem_cons_self, by rw [hnew]⟩
      · rw [hcache x (hold x hx).2]
        obtain ⟨h1, h2, h3⟩ := hm.owned.heads x hx
        exact ⟨hown h1, hown h2, hown h3⟩
    · rcases mem_cons.mp hs with rfl | hs
      · rw [hnew]; exact own_none
      · rw [hhdr s hs] at hx ⊢
        exact hown (hm.owned.next s hs x hx)
    · rcases mem_cons.mp hs with rfl | hs
      · refine ⟨c, (hcaches c).mpr (.inl rfl), by rw [hnew], ?_⟩
        rw [hself, hnew]
        exact ⟨rfl, rfl, length_replicate⟩
      · obtain ⟨x, hx, hcx, hlaid⟩ := hm.owned.slab s hs
        refine ⟨x, (hcaches x).mpr (.inr hx), ?_, ?_⟩
        · rw [hhdr s hs]; exact hcx
        · rw [hhdr s hs, hcache x (hold x hx).2]; exact hlaid
    · rcases mem_cons.mp hs with rfl | hs
      · exact hq.1
      · exact hm.owned.pages s hs
  obtain ⟨P, F, E, hcore, hsorted⟩ := hlists
  have hc0 : c0 ≠ c := (hold c0 (findSlabCache_mem hcore.found).1).2
  have hlist : ∀ s ∈ P ++ F ++ E, (withCache a1 c q stored size root).hdr s = a1.hdr s :=
    fun s hs => hhdr s (hcore.mem_slabs hs).1
  have hslabs : slabsOf (withCache a1 c q stored size root) c0 = slabsOf a1 c0 := by
    show (q :: a1.slabs).filter _ = _
    rw [filter_cons, hnew, if_neg (by simpa using hc0.symm)]
    exact filter_congr fun s hs => by rw [hhdr s hs]
  have hfound : findSlabCache (withCache a1 c q stored size root).cache root slabCacheName = some c0 := by
    refine find_add_of_some ?_ hroot
    rw [find_congr_mem fun x hx => by rw [hcache x (hold x hx).2]]
    exact hcore.found
  refine ⟨⟨P, F, E, hcore.frame hfound (hcache c0 hc0) hlist hslabs howned, hsorted.frame hlist⟩, ?_,
    fun x hx => ?_, fun x hx => ?_, howned⟩
  · rw [hcache c0 hc0]; exact hfull
  · rcases (hcaches x).mp hx with rfl | hx
    · exact mem_cons_self
    · exact mem_cons_of_mem _ (hold x hx).1
  · rcases (hcaches x).mp hx with rfl | hx
    · rw [hself]; exact ⟨hnul, hlen⟩
    · rw [hcache x (hold x hx).2, hm.names]
      exact h.names x (hm.root ▸ hx)

theorem kstrlcpy_ok (name : CString) :
    0 ∉ kstrlcpy name nameMax ∧ (kstrlcpy name nameMax).length < nameMax := by
  refine ⟨fun hmem => name.2 (mem_of_mem_take hmem), ?_⟩
  rw [kstrlcpy, length_take, nameMax]
  omega

variable {first second : Option ℕ}

theorem Grants.fresh (hg : Grants a first second) {q : ℕ} (hq : second = some q)
    (hslabs : ∀ s ∈ a1.slabs, s ∈ a.slabs ∨ first = some s) :
    FreshPages a1 q := by
  refine ⟨(hg.slab q hq).1, fun s hs => ?_⟩
  rcases hslabs s hs with hs | hs
  · exact (hg.slab q hq).2 s hs
  · exact hg.apart s q hs hq

theorem createCache_cases (h : Ready a c0 out) (hg : Grants a first second) (name : CString) (size : ℕ) :
    ((findSlabCache a.cache a.root name).isSome ∨ NeedsSlab a ∧ first = none) ∧
        createCache first second name size a = .ok (-1, a) ∨
      findSlabCache a.cache a.root name = none ∧ ¬ (NeedsSlab a ∧ first = none) ∧ ∃ c a1, c ∉ out ∧
        createCache first second name size a = fillCache second name size c a1 ∧
        Moved c0 a a1 ∧ (∀ q, second = some q → FreshPages a1 q) ∧
        ∀ q root, second = some q →
          addSlabCache (withCache a1 c q (kstrlcpy name nameMax) size root).cache c a1.root =
            some root →
          Ready (withCache a1 c q (kstrlcpy name nameMax) size root) c0 (c :: out) := by
  cases hfind : findSlabCache a.cache a.root name with
  | some x => exact .inl ⟨.inl rfl, by rw [createCache, hfind]; rfl⟩
  | none =>
    rcases slabAlloc_cache h hg.refill with
      ⟨hneeds, hnone, heq⟩ | ⟨hsome, c, a1, hc, heq, hm, hfull, hlists⟩
    · refine .inl ⟨.inr ⟨hneeds, hnone⟩, ?_⟩
      rw [createCache, hfind, heq]
      rfl
    · have hfresh : ∀ q, second = some q → FreshPages a1 q :=
        fun q hq => hg.fresh hq (slabAlloc_slabs heq)
      refine .inr ⟨rfl, hsome, c, a1, hc, ?_, hm, hfresh, fun q root hq hroot => ?_⟩
      · rw [createCache, hfind, heq]
        rfl
      · exact h.install hm hc hfull hlists (hfresh q hq) (kstrlcpy_ok name).1 (kstrlcpy_ok name).2
          hroot

theorem create_ready (h : Ready a c0 out) (hg : Grants a first second) {name : CString} {size : ℕ} {ret : ℤ}
    (heq : memorySlabCreateCache first second name size a = .ok (ret, a')) :
    a'.lock = false ∧ ∃ out', Ready a' c0 out' := by
  obtain ⟨-, a1, hcall, rfl⟩ := locked_returned heq
  have hg' : Grants { a with lock := true } first second := ⟨hg.refill, hg.slab, hg.apart⟩
  rcases createCache_cases (h.setLock true) hg' name size with
    ⟨-, hcreate⟩ | ⟨-, -, c, a2, -, hcreate, -, -, hready⟩
  · rw [hcreate] at hcall
    cases hcall
    exact ⟨rfl, out, (h.setLock true).setLock false⟩
  · rw [hcreate] at hcall
    obtain ⟨-, -, q, root, hq, rfl, hroot⟩ := fillCache_cases hcall
    exact ⟨rfl, c :: out, (hready q root hq hroot).setLock false⟩

/-! ### Every state -/

theorem objCount_cache : objCount sizeofCache = 289 := by decide

/-- The state `memory_slab_init` makes, with the slab at `p`. -/
def started (p : ℕ) (a : Allocator) : Allocator where
  lock := false
  root := .node .nil (objStart p (objCount sizeofCache)) .nil
  cache := Function.update a.cache (objStart p (objCount sizeofCache))
    ⟨slabCacheName, sizeofCache, some p, none, none⟩
  hdr := Function.update a.hdr p { freshHdr p sizeofCache with
    cache := some (objStart p (objCount sizeofCache))
    nused := 1
    marks := (List.replicate (objCount sizeofCache) true).set 0 false }
  slabs := p :: a.slabs

theorem memorySlabInit_eq (p : ℕ) (a : Allocator) : memorySlabInit (some p) a = .ok (0, started p a) := by
  have hsize : add64 sizeofCache 1 ≠ 0 := by decide
  have hname : kstrlcpy slabCacheName nameMax = slabCacheName := by decide
  simp [memorySlabInit, slabCacheInit, newSlab, hsize, hname, bind, Except.bind, addSlabCache, pure,
    Except.pure, Allocator.setHdr, Allocator.setCache, freshHdr, started]

/-- The cache of the caches is a new cache, with itself as its only object in use. -/
theorem started_ready {p : ℕ} (h0 : a.slabs = []) (hp : p + slabBytes ≤ 2 ^ 64) :
    ∃ c0 out, Ready (started p a) c0 out := by
  obtain ⟨c, hc⟩ : ∃ c, c = objStart p (objCount sizeofCache) := ⟨_, rfl⟩
  have hslabs : (started p a).slabs = [p] := by rw [started, h0]
  have hroot : (started p a).root = .node .nil c .nil := by rw [started, hc]
  have hcache : (started p a).cache c = ⟨slabCacheName, sizeofCache, some p, none, none⟩ := by
    rw [started, hc]; exact update_self ..
  have hhdr : (started p a).hdr p = { freshHdr p sizeofCache with
      cache := some c
      nused := 1
      marks := (List.replicate (objCount sizeofCache) true).set 0 false } := by
    rw [started, hc]; exact update_self ..
  have hfound : findSlabCache (started p a).cache (started p a).root slabCacheName = some c := by
    rw [hroot, findSlabCache, hcache, if_pos (kstrncmp_self _ _)]
  have hof : slabsOf (started p a) c = [p] := by
    rw [slabsOf, hslabs, filter_cons, hhdr, if_pos (by simp), filter_nil]
  have hown : Own (started p a) c (some p) := by
    rintro t ⟨⟩
    rw [hslabs, hhdr]
    exact ⟨mem_singleton_self p, rfl⟩
  have hmem : ∀ x ∈ (started p a).root.caches, x = c := by
    intro x hx
    rw [hroot] at hx
    simpa [CacheTree.caches] using hx
  have hslab : ∀ s ∈ (started p a).slabs, s = p := by
    intro s hs
    rw [hslabs] at hs
    exact mem_singleton.mp hs
  have hpages : ∀ s ∈ (started p a).slabs, s + slabBytes ≤ 2 ^ 64 := fun s hs => hslab s hs ▸ hp
  have hapart : (started p a).slabs.Pairwise Apart := by rw [hslabs]; exact pairwise_singleton ..
  have hnew : NewCache (started p a) slabCacheName c p := by
    refine ⟨hfound, rfl, hof, hpages, hapart, by rw [hcache], .inr ?_⟩
    rw [hcache, hhdr]
    exact ⟨rfl, rfl, (by decide : 1 < objCount sizeofCache), rfl⟩
  obtain ⟨P, F, E, -, hcore, hsorted⟩ := newCache_inv hnew
    (by rw [hcache]; exact (by decide : 1 ≤ sizeofCache))
    (by rw [hcache]; exact (by decide : sizeofCache < 32672))
  have hin : p ∈ P ++ F ++ E := hcore.members.mem_iff.mpr (by rw [hof]; exact mem_singleton_self p)
  refine ⟨c, [c], ⟨P, F, E, { hcore with used := ?_, out_nodup := nodup_singleton c }, hsorted⟩, ?_,
    fun x hx => ?_, fun x hx => ?_, ⟨fun x hx => ?_, fun s hs x hx => ?_, fun s hs => ?_, hpages, hapart⟩⟩
  · intro obj hobj
    refine ⟨p, hin, 0, ?_⟩
    rw [mem_singleton.mp hobj, InUse, hcache, hhdr]
    exact ⟨by rw [objCount_cache]; rfl, hc⟩
  · rw [hcache]
  · rw [hmem x hx]; exact mem_singleton_self c
  · rw [hmem x hx, hcache]
    exact ⟨slabCacheName.2, (by decide : slabCacheName.1.length < nameMax)⟩
  · rw [hmem x hx, hcache]
    exact ⟨hown, own_none, own_none⟩
  · rw [hslab s hs, hhdr]
    exact own_none
  · rw [hslab s hs]
    refine ⟨c, by rw [hroot]; simp [CacheTree.caches], by rw [hhdr], ?_⟩
    rw [hcache, hhdr]
    exact ⟨rfl, rfl, by simp⟩

/-- STEP: every call keeps it. -/
theorem call_ready (h : a.lock = false ∧ ∃ c0 out, Ready a c0 out) (hcall : Call a a') :
    a'.lock = false ∧ ∃ c0 out, Ready a' c0 out := by
  obtain ⟨-, c0, out, h⟩ := h
  cases hcall with
  | create first second name size ret _ hg heq =>
    obtain ⟨hlock, out', hready⟩ := create_ready h hg heq
    exact ⟨hlock, c0, out', hready⟩
  | alloc pages name hname obj _ hp heq =>
    obtain ⟨hlock, c, hne, hm⟩ := alloc_moved h hname hp heq
    exact ⟨hlock, c0, out, h.moved hm hne⟩
  | free name hname obj ret _ heq =>
    obtain ⟨hlock, c, hne, hm⟩ := free_moved h hname heq
    exact ⟨hlock, c0, out, h.moved hm hne⟩

/-- RUN: so every state has it. -/
theorem Reaches.ready (h : Reaches a) : a.lock = false ∧ ∃ c0 out, Ready a c0 out := by
  obtain ⟨a0, p, a1, h0, hp, hinit, hrun⟩ := h
  rw [memorySlabInit_eq] at hinit
  cases hinit
  exact Run.invariant (P := fun a => a.lock = false ∧ ∃ c0 out, Ready a c0 out) hrun
    ⟨rfl, started_ready h0 hp⟩ fun _ _ hi hcall => call_ready hi hcall

end States

/-! ### Creation is atomic -/

/-- The cache is in the tree under its name, and its only slab `s` is in `full`, with every object
    free. -/
def Created (a : Allocator) (name : List UInt8) (size s : ℕ) : Prop :=
  ∃ c, findSlabCache a.cache a.root name = some c ∧ a.cache c = ⟨name, size, none, some s, none⟩ ∧
    slabsOf a c = [s] ∧ a.hdr s = { freshHdr s size with cache := some c }

/-- The call returns, with -1 and everything as it was, or with 0, no page allocation of it failed,
    and the cache there. -/
def CreatesAtomically (first second : Option ℕ) (name : List UInt8) (size : ℕ) (a : Allocator) : Prop :=
  ∃ ret a', memorySlabCreateCache first second name size a = .ok (ret, a') ∧ a'.lock = false ∧
    (ret = -1 ∧ a' = a ∨ ret = 0 ∧ ¬ (NeedsSlab a ∧ first = none) ∧
      ∃ s, second = some s ∧ Created a' name size s)

/-- The name is taken, or `slab_cache` needs a slab and gets none, or there are pages for the new slab,
    the name fits with its NUL, and `size + 1` does not wrap. -/
def CreateOk (first second : Option ℕ) (name : List UInt8) (size : ℕ) (a : Allocator) : Prop :=
  (findSlabCache a.cache a.root name).isSome ∨ NeedsSlab a ∧ first = none ∨
    second ≠ none ∧ name.length < nameMax ∧ add64 size 1 ≠ 0

section Atomic
variable {a : Allocator} {c c0 : ℕ} {out : List ℕ} {first second : Option ℕ}

/-- What a cache that was hung into the tree looks like, when its name was not cut off. -/
theorem Ready.created (h : Ready a c0 out) {a1 : Allocator} {q size : ℕ} {name : List UInt8}
    {root : CacheTree} (hm : Moved c0 a a1) (hc : c ∉ out) (hq : FreshPages a1 q)
    (hfound : findSlabCache (withCache a1 c q name size root).cache root name = some c) :
    Created (withCache a1 c q name size root) name size q := by
  refine ⟨c, hfound, cache_withCache_self, ?_, hdr_withCache_self⟩
  show (q :: a1.slabs).filter _ = _
  rw [filter_cons, hdr_withCache_self, if_pos (by simp)]
  congr 1
  refine filter_eq_nil_iff.mpr fun s hs => ?_
  obtain ⟨x, hx, hcx, -⟩ := hm.owned.slab s hs
  rw [hdr_withCache_of_fresh hq hs, hcx]
  -- the cache of an older slab is an object in use of `slab_cache`, the new one is not
  have hxc : x ≠ c := by
    rintro rfl
    rw [hm.root] at hx
    exact hc (h.held x hx)
  simpa using hxc

theorem createCache_atomic (h : Ready a c0 out) (hg : Grants a first second) (name : CString)
    (size : ℕ) : CreateOk first second name size a ↔ ∃ ret a',
      createCache first second name size a = .ok (ret, a') ∧
        (ret = -1 ∧ a' = a ∨ ret = 0 ∧ ¬ (NeedsSlab a ∧ first = none) ∧
          ∃ s, second = some s ∧ Created a' name size s) := by
  rcases createCache_cases h hg name size with
    ⟨hcond, heq⟩ | ⟨hfind, hsome, c, a1, hc, heq, hm, hfresh, hready⟩
  · constructor
    · exact fun _ => ⟨-1, a, heq, .inl ⟨rfl, rfl⟩⟩
    · exact fun _ => hcond.imp id .inl
  · rw [heq]
    constructor
    · rintro (hdup | hfail | ⟨hpages, hlen, hsize⟩)
      · rw [hfind] at hdup; cases hdup
      · exact absurd hfail hsome
      · obtain ⟨q, rfl⟩ := Option.ne_none_iff_exists'.mp hpages
        have hname : kstrlcpy name nameMax = name := take_of_length_le (Nat.le_pred_of_lt hlen)
        have hself : ((withCache a1 c q name size .nil).cache c).name = name := by
          rw [cache_withCache_self]
        -- the new cache goes where the search for its name ended
        have hnone : findSlabCache (withCache a1 c q name size .nil).cache a1.root
            ((withCache a1 c q name size .nil).cache c).name = none := by
          rw [hself, find_congr_mem fun x hx => ?_, hm.find, hfind]
          have hxc : x ≠ c := by
            rintro rfl
            rw [hm.root] at hx
            exact hc (h.held x hx)
          rw [cache_withCache_of_ne hxc]
        obtain ⟨root, hroot, hfound⟩ := find_add_self hnone
        rw [hself] at hfound
        refine ⟨0, withCache a1 c q name size root, ?_, .inr ⟨rfl, hsome, q, rfl, ?_⟩⟩
        · have hfill : fillCache (some q) name size c a1 =
              .ok (0, withCache a1 c q (kstrlcpy name nameMax) size root) :=
            fillCache_eq hsize (by rw [hname]; exact hroot)
          rwa [hname] at hfill
        · exact h.created hm hc (hfresh q rfl) hfound
    · rintro ⟨ret, a', hfill, hres⟩
      obtain ⟨rfl, hsize, q, root, rfl, rfl, hroot⟩ := fillCache_cases hfill
      rcases hres with ⟨hret, -⟩ | ⟨-, -, s, -, x, hfound, -⟩
      · cases hret
      · refine .inr (.inr ⟨by simp, ?_, hsize⟩)
        -- the name found is stored, so it was not cut off
        obtain ⟨hmem, hz⟩ := findSlabCache_mem hfound
        obtain ⟨hnul, hlen⟩ := (hready q root rfl hroot).names x hmem
        rw [eq_of_kstrncmp hnul name.2 hlen hz]
        exact hlen

theorem createCache_refused (h : Ready a c0 out) (hg : Grants a first second) {name : CString}
    {size : ℕ} {a' : Allocator} (heq : createCache first second name size a = .ok (-1, a')) : a' = a := by
  rcases createCache_cases h hg name size with ⟨-, hcreate⟩ | ⟨-, -, c, a1, -, hcreate, -⟩
  · rw [hcreate] at heq
    exact (Prod.mk.inj (Except.ok.inj heq)).2.symm
  · rw [hcreate] at heq
    exact absurd (fillCache_cases heq).1 (by decide)

/-- In every state, creating a cache is atomic exactly under `CreateOk`. -/
theorem create_cache_atomic_iff (hr : Reaches a) (hg : Grants a first second) (name : CString)
    (size : ℕ) : CreatesAtomically first second name size a ↔ CreateOk first second name size a := by
  obtain ⟨hlock, c0, out, hready⟩ := hr.ready
  have hg' : Grants { a with lock := true } first second := ⟨hg.refill, hg.slab, hg.apart⟩
  refine Iff.trans ?_ (createCache_atomic (hready.setLock true) hg' name size).symm
  constructor
  · rintro ⟨ret, a', heq, -, hres⟩
    obtain ⟨-, a1, hcall, rfl⟩ := locked_returned heq
    refine ⟨ret, a1, hcall, hres.imp (fun h => ⟨h.1, ?_⟩) id⟩
    rw [h.1] at hcall
    exact createCache_refused (hready.setLock true) hg' hcall
  · rintro ⟨ret, a1, hcall, hres⟩
    refine ⟨ret, { a1 with lock := false }, returns_locked hlock hcall, rfl,
      hres.imp (fun h => ⟨h.1, ?_⟩) id⟩
    rw [h.2, ← hlock]

end Atomic

/-! An allocator right after `memory_slab_init`, and the name "k". -/

def blankMemory : Allocator where
  lock := true
  root := .nil
  cache := fun _ => ⟨[], 0, none, none, none⟩
  hdr := fun _ => ⟨none, none, 0, 0, 0, []⟩
  slabs := []

def onlySlabCache : Allocator := started 0x8000 blankMemory

theorem onlySlabCache_reaches : Reaches onlySlabCache :=
  ⟨blankMemory, 0x8000, _, rfl, by decide, memorySlabInit_eq .., .refl⟩

theorem create_cache_atomic_iff_first_cache :
    CreateOk none (some 0x10000) [107] 8 onlySlabCache ∧
      CreatesAtomically none (some 0x10000) [107] 8 onlySlabCache := by
  have hok : CreateOk none (some 0x10000) [107] 8 onlySlabCache :=
    .inr (.inr ⟨by decide, by decide, by decide⟩)
  have hg : Grants onlySlabCache none (some 0x10000) := by
    refine ⟨by simp, fun q hq => ?_, by simp⟩
    obtain rfl := Option.some.inj hq
    refine ⟨by decide, fun s hs => ?_⟩
    obtain rfl := List.mem_singleton.mp hs
    exact .inr (by decide)
  exact ⟨hok, (create_cache_atomic_iff onlySlabCache_reaches hg ⟨[107], by decide⟩ 8).mpr hok⟩

/-- No pages for the new slab: the call does not come back. -/
theorem create_cache_without_pages :
    Reaches onlySlabCache ∧ memorySlabCreateCache none none [107] 8 onlySlabCache = .error .panic ∧
      ¬ CreatesAtomically none none [107] 8 onlySlabCache := by
  have hpanic : memorySlabCreateCache none none [107] 8 onlySlabCache = .error .panic := by
    rfl
  refine ⟨onlySlabCache_reaches, hpanic, ?_⟩
  rintro ⟨ret, a', heq, -⟩
  rw [hpanic] at heq
  cases heq

end Advos.Slab
