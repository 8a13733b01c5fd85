import Advos.Slab.Create

/-! `kmalloc`: a cache for each of thirteen sizes.

    A request is served from the smallest size that is not below it. The comparison casts the request
    to `int`, so a request of 2 GiB or more is compared by its low 32 bits, as a signed number:

        sz          0 ……… 8192 ……… 2^31-1 | 2^31 ………………… 2^32 | 2^32+1 …
        (int) sz    0 ……… 8192 ……… 2^31-1 | -2^31 ………………    0 | 1 …
                    the class      NULL   | an object of 8 bytes       | the class of sz - 2^32 … -/

namespace Advos.Slab
open Linked Word Relation List

/-- `kmalloc_sizes`. -/
def kmallocSizes : List ℕ := [8, 16, 32, 64, 96, 128, 192, 256, 512, 1024, 2048, 4096, 8192]

/-- The name of the cache for objects of `n` bytes, "kmalloc-%d". -/
def cachename (n : ℕ) : CString :=
  ⟨[107, 109, 97, 108, 108, 111, 99, 45] ++ (Nat.digits 10 n).reverse.map fun d => UInt8.ofNat (48 + d),
    by
      simp only [List.mem_append, List.mem_map, List.mem_reverse, not_or, not_exists, not_and]
      refine ⟨by decide, fun d hd heq => ?_⟩
      have hlt := Nat.digits_lt_base (by decide : 1 < 10) hd
      have hval := congrArg UInt8.toNat heq
      rw [UInt8.toNat_ofNat_of_lt' (by simp only [UInt8.size]; omega)] at hval
      simp at hval⟩

/-- The loop of `kmalloc_init`; `pages n` is what the page allocator answers while the cache for `n`
    bytes is created. -/
def initLoop (pages : ℕ → Option ℕ × Option ℕ) : List ℕ → Allocator → Except Stop (ℤ × Allocator)
  | [], a => pure (0, a)
  | n :: rest, a => do
    let (ret, a) ← memorySlabCreateCache (pages n).1 (pages n).2 (cachename n) n a
    if ret < 0 then pure (-1, a) else initLoop pages rest a

/-- `kmalloc_init`. -/
def kmallocInit (pages : ℕ → Option ℕ × Option ℕ) (a : Allocator) : Except Stop (ℤ × Allocator) :=
  initLoop pages kmallocSizes a

/-- The loop of `kmalloc` that looks for `aligned_size`. -/
def alignedSize (sz : ℕ) : Option ℕ := kmallocSizes.find? fun n => toInt32 sz ≤ n

/-- `kmalloc` once `aligned_size` is known; no size stands for -1. -/
def allocAligned (pages : Option ℕ) (a : Allocator) : Option ℕ → Except Stop (Option ℕ × Allocator)
  | none => pure (none, a)
  | some n => memorySlabAlloc pages (cachename n) a

/-- `kmalloc`. -/
def kmalloc (pages : Option ℕ) (sz : ℕ) (a : Allocator) : Except Stop (Option ℕ × Allocator) :=
  allocAligned pages a (alignedSize sz)

/-- The loop of `kfree`. -/
def freeLoop (obj : ℕ) : List ℕ → Allocator → Except Stop Allocator
  | [], a => pure a
  | n :: rest, a => do
    let (ret, a) ← memorySlabFree (cachename n) obj a
    if ret = 0 then pure a else freeLoop obj rest a

/-- `kfree`. -/
def kfree (obj : ℕ) (a : Allocator) : Except Stop Allocator := freeLoop obj kmallocSizes a

/-! ### What an allocation hands out -/

/-- An object of cache `c` that is in use. -/
def ObjectOf (a : Allocator) (c obj : ℕ) : Prop :=
  ∃ s ∈ slabsOf a c, ∃ i, InUse a (a.cache c).size obj s i

/-- No slab was made and no object marked. -/
def Unallocated (a a' : Allocator) : Prop :=
  a'.slabs = a.slabs ∧ ∀ s, (a'.hdr s).marks = (a.hdr s).marks

/-- The slab the next object is taken from, if the cache has one. -/
def firstSlab (a : Allocator) (c : ℕ) : Option ℕ := (a.cache c).partialHead.or (a.cache c).fullHead

/-- The cache can hand out nothing: its first slab has no free object, or it has no slab to take from
    and there are no pages for one. -/
def Exhausted (a : Allocator) (c : ℕ) (pages : Option ℕ) : Prop :=
  match firstSlab a c with
  | some s => true ∉ (a.hdr s).marks
  | none => pages = none

section Outcome
variable {a a' : Allocator} {c s : ℕ} {name : List UInt8}

theorem takeObject_cases (c s : ℕ) (a : Allocator) :
    (true ∉ (a.hdr s).marks ∧ takeObject c s a = (none, a)) ∨
    ∃ i, (a.hdr s).marks[i]? = some true ∧ takeObject c s a =
      (some (add64 (a.hdr s).objHead (mul64 (a.cache c).size i)), a.setHdr s
        { a.hdr s with marks := (a.hdr s).marks.set i false, nused := (a.hdr s).nused + 1 }) := by
  cases hfind : (a.hdr s).marks.findIdx? id with
  | none =>
    refine .inl ⟨fun hmem => ?_, by rw [takeObject, hfind]⟩
    exact absurd (List.findIdx?_eq_none_iff.mp hfind true hmem) (by simp)
  | some i =>
    obtain ⟨hi, hmark, -⟩ := List.findIdx?_eq_some_iff_getElem.mp hfind
    refine .inr ⟨i, ?_, by rw [takeObject, hfind]⟩
    rw [List.getElem?_eq_getElem hi]
    simpa using hmark

theorem settle_hdr (c s t : ℕ) (a : Allocator) : ((settle c s a).hdr t).marks = (a.hdr t).marks ∧
    ((settle c s a).hdr t).objHead = (a.hdr t).objHead ∧
    ((settle c s a).hdr t).cache = (a.hdr t).cache := by
  unfold settle
  split
  · rw [setHdr_next]
    exact ⟨rfl, rfl, rfl⟩
  · exact ⟨rfl, rfl, rfl⟩

theorem settle_slabs (c s : ℕ) (a : Allocator) : (settle c s a).slabs = a.slabs := by
  unfold settle
  split <;> rfl

theorem takeFull_first (hs : firstSlab a c = some s) : ∃ a1, takeFull c a = .ok a1 ∧
    (a1.cache c).partialHead = some s ∧ a1.hdr = a.hdr ∧ a1.slabs = a.slabs := by
  unfold firstSlab at hs
  cases hp : (a.cache c).partialHead with
  | some t =>
    rw [hp] at hs
    cases hs
    exact ⟨a, by rw [takeFull, hp]; rfl, hp, rfl, rfl⟩
  | none =>
    rw [hp, Option.none_or] at hs
    refine ⟨setHeads a c (some s) (a.hdr s).next (a.cache c).emptyHead, ?_, by rw [cache_setHeads], rfl,
      rfl⟩
    rw [takeFull, hp, hs]
    rfl

theorem allocObject_outcome (h : Owned a) (hc : c ∈ a.root.caches) (hsize : (a.cache c).size < 32672)
    (hs : firstSlab a c = some s) :
    (true ∉ (a.hdr s).marks ∧ ∃ a', allocObject c a = .ok (none, a') ∧ Unallocated a a') ∨
      true ∈ (a.hdr s).marks ∧ ∃ obj a', allocObject c a = .ok (some obj, a') ∧ ObjectOf a' c obj := by
  obtain ⟨a1, htake, hpart, hhdr, hslabs⟩ := takeFull_first hs
  have hform : allocObject c a = .ok ((takeObject c s a1).1, settle c s (takeObject c s a1).2) := by
    simp only [allocObject, htake, bind, Except.bind, hpart]
    rfl
  have hm := takeFull_moved h hc htake
  have hc1 : c ∈ a1.root.caches := by rw [hm.root]; exact hc
  obtain ⟨hmem, hcs⟩ := (hm.owned.heads c hc1).1 s hpart
  rcases takeObject_cases c s a1 with ⟨hnone, heq⟩ | ⟨i, hmark, heq⟩
  · rw [heq] at hform
    refine .inl ⟨hhdr ▸ hnone, _, hform, (settle_slabs ..).trans hslabs, fun t => ?_⟩
    rw [(settle_hdr c s t a1).1, hhdr]
  · rw [heq] at hform
    obtain ⟨hmarks, hhead, hcache⟩ := settle_hdr c s s (a1.setHdr s
      { a1.hdr s with marks := (a1.hdr s).marks.set i false, nused := (a1.hdr s).nused + 1 })
    rw [hdr_setHdr_self] at hmarks hhead hcache
    refine .inr ⟨hhdr ▸ mem_of_getElem? hmark, _, _, hform, s, ?_, i, ?_, ?_⟩
    · rw [slabsOf, settle_slabs, mem_filter, hcache]
      exact ⟨hmem, by simpa using hcs⟩
    · obtain ⟨hi, -⟩ := List.getElem?_eq_some_iff.mp hmark
      rw [hmarks]
      simp [hi]
    · obtain ⟨x, -, hcx, hlaid⟩ := hm.owned.slab s hmem
      obtain rfl : x = c := by rw [hcs] at hcx; exact (Option.some.inj hcx).symm
      have hi : i < objCount (a1.cache x).size := by
        rw [← hlaid.marks]
        exact (List.getElem?_eq_some_iff.mp hmark).1
      rw [hhead, (allocObject_moved h hc hform).size, ← hm.size, hlaid.objHead]
      exact object_address (lt_trans (hm.size ▸ hsize) (by decide)) (hm.owned.pages s hmem) hi

/-- An allocation from a cache with objects of a proper size returns: NULL, with nothing allocated,
    when the cache is exhausted, and an object of the cache otherwise. -/
theorem slabAlloc_outcome (h : Owned a) (hfind : findSlabCache a.cache a.root name = some c)
    (hsize : (a.cache c).size < 32672) {pages : Option ℕ} (hp : ∀ p, pages = some p → FreshPages a p) :
    (Exhausted a c pages ∧ ∃ a', slabAlloc pages name a = .ok (none, a') ∧ Unallocated a a') ∨
      ¬ Exhausted a c pages ∧ ∃ obj a', slabAlloc pages name a = .ok (some obj, a') ∧
        ObjectOf a' c obj := by
  have hc := (findSlabCache_mem hfind).1
  unfold Exhausted
  cases hs : firstSlab a c with
  | some s =>
    have hheads : ¬ ((a.cache c).partialHead = none ∧ (a.cache c).fullHead = none) := by
      rintro ⟨h1, h2⟩
      rw [firstSlab, h1, h2] at hs
      cases hs
    have hgo : slabAlloc pages name a = allocObject c a := by
      simp only [slabAlloc, hfind, ensureSlab, hheads, if_false]
      rfl
    rw [hgo]
    simpa only [not_not] using allocObject_outcome h hc hsize hs
  | none =>
    obtain ⟨h1, h2⟩ := Option.or_eq_none_iff.mp hs
    cases pages with
    | none =>
      refine .inl ⟨rfl, a, ?_, rfl, fun _ => rfl⟩
      simp only [slabAlloc, hfind, ensureSlab, h1, h2, newSlab, and_self, if_true]
      rfl
    | some p =>
      have hsz : add64 (a.cache c).size 1 ≠ 0 := by
        rw [add64_of_lt (by omega)]; omega
      obtain ⟨hadd, hown⟩ := h.addSlab hc (hp p rfl)
      have hset := hadd.trans (hadd.owned.setHeads own_none hown (hadd.owned.heads c hc).2.2)
      have hgo : slabAlloc (some p) name a = allocObject c
          (setHeads (addSlab a c p) c none (some p) (a.cache c).emptyHead) := by
        simp only [slabAlloc, hfind, ensureSlab_grow h1 h2 hsz]
        rfl
      have hfirst : firstSlab (setHeads (addSlab a c p) c none (some p) (a.cache c).emptyHead) c =
          some p := by
        rw [firstSlab, cache_setHeads]
        rfl
      rw [hgo]
      rcases allocObject_outcome hset.owned hc (by rw [cache_setHeads]; exact hsize) hfirst with
        ⟨hnone, -⟩ | ⟨-, hobj⟩
      · -- a new slab has a free object
        refine absurd ?_ hnone
        show true ∈ ((addSlab a c p).hdr p).marks
        rw [hdr_addSlab_self]
        exact mem_replicate.mpr ⟨(objCount_pos hsize).ne', rfl⟩
      · exact .inr ⟨by simp, hobj⟩

theorem memorySlabAlloc_outcome (h : Owned a) (hlock : a.lock = false)
    (hfind : findSlabCache a.cache a.root name = some c) (hsize : (a.cache c).size < 32672)
    {pages : Option ℕ} (hp : ∀ p, pages = some p → FreshPages a p) :
    (Exhausted a c pages ∧ ∃ a', memorySlabAlloc pages name a = .ok (none, a') ∧ Unallocated a a') ∨
      ¬ Exhausted a c pages ∧ ∃ obj a', memorySlabAlloc pages name a = .ok (some obj, a') ∧
        ObjectOf a' c obj ∧ c ∈ a'.root.caches ∧ (a'.cache c).size = (a.cache c).size := by
  have hfind' : findSlabCache { a with lock := true }.cache { a with lock := true }.root name = some c :=
    hfind
  rcases slabAlloc_outcome (h.setLock true) hfind' hsize hp with
    ⟨hex, a', heq, hun⟩ | ⟨hex, obj, a', heq, hobj⟩
  · exact .inl ⟨hex, _, returns_locked hlock heq, hun⟩
  · have hm := slabAlloc_moved (h.setLock true) hp hfind heq
    refine .inr ⟨hex, obj, _, returns_locked hlock heq, hobj, ?_, hm.size⟩
    show c ∈ a'.root.caches
    rw [hm.root]
    exact (findSlabCache_mem hfind).1

end Outcome

/-! ### After `kmalloc_init` -/

/-- The cache for `n` bytes is there. -/
def Serves (a : Allocator) (n : ℕ) : Prop :=
  ∃ c, findSlabCache a.cache a.root (cachename n) = some c ∧ (a.cache c).size = n

/-- The page allocator answers every creation of the loop with pages that are in no slab. -/
def Granted (pages : ℕ → Option ℕ × Option ℕ) : List ℕ → Allocator → Prop
  | [], _ => True
  | n :: rest, a => Grants a (pages n).1 (pages n).2 ∧
    match memorySlabCreateCache (pages n).1 (pages n).2 (cachename n) n a with
    | .ok (_, a) => Granted pages rest a
    | .error _ => True

/-- `kmalloc_init` returned 0 in some state, then any calls. -/
def Initialised (a : Allocator) : Prop :=
  ∃ a0 pages a1, Reaches a0 ∧ Granted pages kmallocSizes a0 ∧ kmallocInit pages a0 = .ok (0, a1) ∧
    Relation.ReflTransGen Call a1 a

section Init
variable {a a' : Allocator} {c c0 : ℕ} {out : List ℕ} {name : List UInt8}

theorem create_find (h : Ready a c0 out) {first second : Option ℕ} (hg : Grants a first second)
    {new : CString} {size : ℕ} {ret : ℤ}
    (heq : memorySlabCreateCache first second new size a = .ok (ret, a'))
    (hfind : findSlabCache a.cache a.root name = some c) :
    findSlabCache a'.cache a'.root name = some c ∧ (a'.cache c).size = (a.cache c).size := by
  obtain ⟨-, a1, hcall, rfl⟩ := locked_returned heq
  have hg' : Grants { a with lock := true } first second := ⟨hg.refill, hg.slab, hg.apart⟩
  rcases createCache_cases (h.setLock true) hg' new size with
    ⟨-, hcreate⟩ | ⟨-, -, x, a2, hx, hcreate, hm, -, -⟩
  · rw [hcreate] at hcall
    cases hcall
    exact ⟨hfind, rfl⟩
  · rw [hcreate] at hcall
    obtain ⟨-, -, q, root, -, rfl, hroot⟩ := fillCache_cases hcall
    have hold : ∀ y ∈ a2.root.caches, y ≠ x := by
      rintro y hy rfl
      rw [hm.root] at hy
      exact hx (h.held y hy)
    have hfind2 : findSlabCache a2.cache a2.root name = some c := (hm.find name).trans hfind
    refine ⟨find_add_of_some ?_ hroot, ?_⟩
    · rw [find_congr_mem fun y hy => by rw [cache_withCache_of_ne (hold y hy)], hfind2]
    · show ((withCache a2 x q _ size root).cache c).size = _
      rw [cache_withCache_of_ne (hold c (findSlabCache_mem hfind2).1), hm.sizes]

theorem create_created (h : Ready a c0 out) {first second : Option ℕ} (hg : Grants a first second)
    {new : CString} (hlen : new.1.length < nameMax) {size : ℕ} {ret : ℤ} (hret : ¬ ret < 0)
    (heq : memorySlabCreateCache first second new size a = .ok (ret, a')) :
    ∃ s, Created a' new size s := by
  obtain ⟨-, a1, hcall, rfl⟩ := locked_returned heq
  have hg' : Grants { a with lock := true } first second := ⟨hg.refill, hg.slab, hg.apart⟩
  have hok : CreateOk first second new size { a with lock := true } := by
    rcases createCache_cases (h.setLock true) hg' new size with
      ⟨-, hcreate⟩ | ⟨-, -, x, a2, -, hcreate, -⟩
    · rw [hcreate] at hcall
      cases hcall
      exact absurd (by decide) hret
    · rw [hcreate] at hcall
      obtain ⟨-, hsize, q, root, rfl, -⟩ := fillCache_cases hcall
      exact .inr (.inr ⟨by simp, hlen, hsize⟩)
  obtain ⟨ret', a2, heq2, hres⟩ := (createCache_atomic (h.setLock true) hg' new size).mp hok
  rw [hcall] at heq2
  cases heq2
  rcases hres with ⟨rfl, -⟩ | ⟨-, -, s, -, hcreated⟩
  · exact absurd (by decide) hret
  · exact ⟨s, hcreated⟩

/-- STEP: a call keeps the caches. -/
theorem call_serves (h : ∃ c0 out, Ready a c0 out) (hcall : Call a a') {n : ℕ} (hn : Serves a n) :
    Serves a' n := by
  obtain ⟨c0, out, h⟩ := h
  obtain ⟨c, hfind, hsize⟩ := hn
  have hkept : (∃ x, x ≠ c0 ∧ Moved x a a') → Serves a' n := by
    rintro ⟨x, -, hm⟩
    exact ⟨c, (hm.find _).trans hfind, (hm.sizes c).trans hsize⟩
  cases hcall with
  | create first second name size ret _ hg heq =>
    obtain ⟨hfind', hsize'⟩ := create_find h hg heq hfind
    exact ⟨c, hfind', hsize'.trans hsize⟩
  | alloc pages name hname obj _ hp heq => exact hkept (alloc_moved h hname hp heq).2
  | free name hname obj ret _ heq => exact hkept (free_moved h hname heq).2

theorem cachename_length : ∀ n ∈ kmallocSizes, (cachename n).1.length < nameMax := by decide

/-- STEP: the loop of `kmalloc_init` makes the caches it has not made yet and keeps the others. -/
theorem initLoop_serves {pages : ℕ → Option ℕ × Option ℕ} {l : List ℕ} (hl : l ⊆ kmallocSizes)
    (h : a.lock = false ∧ ∃ c0 out, Ready a c0 out) (hg : Granted pages l a)
    (heq : initLoop pages l a = .ok (0, a')) :
    (a'.lock = false ∧ ∃ c0 out, Ready a' c0 out) ∧ (∀ n, Serves a n → Serves a' n) ∧
      ∀ n ∈ l, Serves a' n := by
  induction l generalizing a with
  | nil =>
    cases heq
    exact ⟨h, fun _ hn => hn, by simp⟩
  | cons n l ih =>
    obtain ⟨⟨ret, a1⟩, hcreate, heq⟩ := returned heq
    obtain ⟨hgrant, hrest⟩ := hg
    rw [hcreate] at hrest
    obtain ⟨hn, hl⟩ := cons_subset.mp hl
    have hcall : Call a a1 := .create a _ _ (cachename n) n ret a1 hgrant hcreate
    dsimp only at heq
    split at heq
    · exact absurd (Prod.mk.inj (Except.ok.inj heq)).1 (by decide)
    · rename_i hret
      obtain ⟨hstate, hkeep, hmade⟩ := ih hl (call_ready h hcall) hrest heq
      refine ⟨hstate, fun m hm => hkeep m (call_serves h.2 hcall hm), fun m hm => ?_⟩
      rcases mem_cons.mp hm with rfl | hm
      · obtain ⟨c0, out, hready⟩ := h.2
        obtain ⟨s, c, hfind, hcache, -⟩ := create_created hready hgrant (cachename_length m hn) hret
          hcreate
        exact hkeep m ⟨c, hfind, by rw [hcache]⟩
      · exact hmade m hm

/-- RUN: after `kmalloc_init` the caches are there for good. -/
theorem Initialised.serves (h : Initialised a) :
    a.lock = false ∧ (∃ c0 out, Ready a c0 out) ∧ ∀ n ∈ kmallocSizes, Serves a n := by
  obtain ⟨a0, pages, a1, hreach, hg, hinit, hrun⟩ := h
  obtain ⟨hstate, -, hserves⟩ := initLoop_serves (List.Subset.refl _) hreach.ready hg hinit
  have hinv := Run.invariant (P := fun a => (a.lock = false ∧ ∃ c0 out, Ready a c0 out) ∧
      ∀ n ∈ kmallocSizes, Serves a n) hrun ⟨hstate, hserves⟩ fun x y hx hcall =>
    ⟨call_ready hx.1 hcall, fun n hn => call_serves hx.1.2 hcall (hx.2 n hn)⟩
  exact ⟨hinv.1.1, hinv.1.2, hinv.2⟩

theorem cachename_ne : ∀ n ∈ kmallocSizes, cachename n ≠ slabCacheName := by decide

theorem kmalloc_run {pages : Option ℕ} (hp : ∀ p, pages = some p → FreshPages a p) {sz : ℕ}
    {r : Option ℕ} (heq : kmalloc pages sz a = .ok (r, a')) : ReflTransGen Call a a' := by
  unfold kmalloc at heq
  cases hsize : alignedSize sz with
  | none =>
    rw [hsize] at heq
    cases heq
    exact .refl
  | some n =>
    rw [hsize] at heq
    have hn : n ∈ kmallocSizes := mem_of_find?_eq_some hsize
    exact .single (.alloc a pages _ (cachename_ne n hn) r a' hp heq)

theorem freeLoop_run {obj : ℕ} {l : List ℕ} (hl : l ⊆ kmallocSizes)
    (heq : freeLoop obj l a = .ok a') : ReflTransGen Call a a' := by
  induction l generalizing a with
  | nil =>
    cases heq
    exact .refl
  | cons n l ih =>
    obtain ⟨⟨ret, a1⟩, hfree, heq⟩ := returned heq
    obtain ⟨hn, hl⟩ := cons_subset.mp hl
    have hcall : Call a a1 := .free a _ (cachename_ne n hn) obj ret a1 hfree
    dsimp only at heq
    split at heq
    · cases heq
      exact .single hcall
    · exact .head hcall (ih hl heq)

/-- Requests and releases stay among the states after `kmalloc_init`. -/
theorem Initialised.kmalloc (h : Initialised a) {pages : Option ℕ}
    (hp : ∀ p, pages = some p → FreshPages a p) {sz : ℕ} {r : Option ℕ}
    (heq : kmalloc pages sz a = .ok (r, a')) : Initialised a' := by
  obtain ⟨a0, answers, a1, hreach, hg, hinit, hrun⟩ := h
  exact ⟨a0, answers, a1, hreach, hg, hinit, hrun.trans (kmalloc_run hp heq)⟩

theorem Initialised.kfree (h : Initialised a) {obj : ℕ} (heq : kfree obj a = .ok a') :
    Initialised a' := by
  obtain ⟨a0, answers, a1, hreach, hg, hinit, hrun⟩ := h
  exact ⟨a0, answers, a1, hreach, hg, hinit, hrun.trans (freeLoop_run (List.Subset.refl _) heq)⟩

end Init

/-! ### Requests -/

/-- The smallest size that `(int)sz` is not above. -/
def Smallest (sz n : ℕ) : Prop :=
  n ∈ kmallocSizes ∧ toInt32 sz ≤ n ∧ ∀ m ∈ kmallocSizes, toInt32 sz ≤ m → n ≤ m

theorem kmallocSizes_le : ∀ n ∈ kmallocSizes, n ≤ 8192 := by decide

theorem kmallocSizes_sorted : kmallocSizes.Pairwise (· < ·) := by decide

theorem Smallest.of_alignedSize {sz n : ℕ} (h : alignedSize sz = some n) : Smallest sz n := by
  obtain ⟨hp, pre, post, hsplit, hpre⟩ := List.find?_eq_some_iff_append.mp h
  have hmem : n ∈ kmallocSizes := mem_of_find?_eq_some h
  refine ⟨hmem, by simpa using hp, fun m hm hle => ?_⟩
  have hsorted := kmallocSizes_sorted
  rw [hsplit] at hm hsorted
  rcases mem_append.mp hm with hm | hm
  · have := hpre m hm
    simp only [Bool.not_eq_true', decide_eq_false_iff_not] at this
    exact absurd hle this
  · rcases mem_cons.mp hm with rfl | hm
    · exact le_refl m
    · exact le_of_lt (rel_of_pairwise_cons (pairwise_append.mp hsorted).2.1 hm)

theorem alignedSize_eq {sz n : ℕ} (h : Smallest sz n) : alignedSize sz = some n := by
  cases hsz : alignedSize sz with
  | none =>
    have := List.find?_eq_none.mp hsz n h.1
    exact absurd h.2.1 (by simpa using this)
  | some m =>
    have hm := Smallest.of_alignedSize hsz
    rw [le_antisymm (hm.2.2 n h.1 h.2.1) (h.2.2 m hm.1 hm.2.1)]

theorem alignedSize_eq_none {sz : ℕ} : alignedSize sz = none ↔ 8192 < toInt32 sz := by
  rw [alignedSize, List.find?_eq_none]
  constructor
  · intro h
    have := h 8192 (by decide)
    simpa using this
  · intro h n hn
    have := kmallocSizes_le n hn
    simp only [decide_eq_true_eq, not_le]
    omega

/-- The call returns NULL or an object of a cache of objects of at least `sz` bytes, and for a request
    above the largest size NULL, with nothing allocated. -/
def NeverUnder (pages : Option ℕ) (sz : ℕ) (a : Allocator) : Prop :=
  ∃ r a', kmalloc pages sz a = .ok (r, a') ∧
    (∀ obj, r = some obj → ∃ c ∈ a'.root.caches, sz ≤ (a'.cache c).size ∧ ObjectOf a' c obj) ∧
    (8192 < sz → r = none ∧ Unallocated a a')

/-- The request is not above the largest size, or still above it as an `int`, or the cache of the size
    it is taken for can hand out nothing. -/
def FitsInt (pages : Option ℕ) (sz : ℕ) (a : Allocator) : Prop :=
  sz ≤ 8192 ∨ 8192 < toInt32 sz ∨ ∃ n c, Smallest sz n ∧
    findSlabCache a.cache a.root (cachename n) = some c ∧ Exhausted a c pages

/-- In every state after `kmalloc_init`. -/
theorem kmalloc_never_under_iff {a : Allocator} (h : Initialised a) {pages : Option ℕ}
    (hp : ∀ p, pages = some p → FreshPages a p) (sz : ℕ) :
    NeverUnder pages sz a ↔ FitsInt pages sz a := by
  obtain ⟨hlock, ⟨c0, out, hready⟩, hserves⟩ := h.serves
  cases hsize : alignedSize sz with
  | none =>
    have hbig := alignedSize_eq_none.mp hsize
    refine iff_of_true ⟨none, a, ?_, by simp, fun _ => ⟨rfl, rfl, fun _ => rfl⟩⟩ (.inr (.inl hbig))
    rw [kmalloc, hsize]
    rfl
  | some n =>
    have hsmall := Smallest.of_alignedSize hsize
    have hn := kmallocSizes_le n hsmall.1
    obtain ⟨c, hfind, hcsize⟩ := hserves n hsmall.1
    have hcall : kmalloc pages sz a = memorySlabAlloc pages (cachename n) a := by
      rw [kmalloc, hsize]
      rfl
    have hint : sz ≤ 8192 → sz ≤ n := by
      intro hle
      have := hsmall.2.1
      rw [toInt32_of_lt (lt_of_le_of_lt hle (by decide))] at this
      exact_mod_cast this
    have hlt : (a.cache c).size < 32672 := by
      rw [hcsize]
      exact lt_of_le_of_lt hn (by decide)
    rcases memorySlabAlloc_outcome hready.owned hlock hfind hlt hp with
      ⟨hex, a', heq, hun⟩ | ⟨hex, obj, a', heq, hobj, hmem, hsame⟩
    · exact iff_of_true ⟨none, a', hcall.trans heq, by simp, fun _ => ⟨rfl, hun⟩⟩
        (.inr (.inr ⟨n, c, hsmall, hfind, hex⟩))
    · constructor
      · rintro ⟨r, a1, heq1, -, hnull⟩
        rw [hcall, heq] at heq1
        obtain ⟨rfl, rfl⟩ := Prod.mk.inj (Except.ok.inj heq1)
        by_contra hnot
        have hbig : 8192 < sz := lt_of_not_ge fun hle => hnot (.inl hle)
        exact absurd (hnull hbig).1 (by simp)
      · rintro (hle | hbig | ⟨m, x, hm, hx, hexh⟩)
        · refine ⟨some obj, a', hcall.trans heq, ?_, fun hbig => absurd hle (not_le.mpr hbig)⟩
          rintro _ ⟨⟩
          exact ⟨c, hmem, by rw [hsame, hcsize]; exact hint hle, hobj⟩
        · rw [alignedSize_eq_none.mpr hbig] at hsize
          cases hsize
        · rw [alignedSize_eq hm] at hsize
          obtain rfl := Option.some.inj hsize
          rw [hfind] at hx
          obtain rfl := Option.some.inj hx
          exact absurd hexh hex

/-! The allocator right after `kmalloc_init`, with the slab for objects of `n` bytes at
    `0x10000 + 0x8000 * n`. -/

instance (s t : ℕ) : Decidable (Apart s t) := inferInstanceAs (Decidable (_ ∨ _))

instance (a : Allocator) (p : ℕ) : Decidable (FreshPages a p) := inferInstanceAs (Decidable (_ ∧ _))

def slabPages (n : ℕ) : Option ℕ × Option ℕ := (none, some (0x10000 + 0x8000 * n))

theorem grants_slab {a : Allocator} {q : ℕ} (h : FreshPages a q) : Grants a none (some q) := by
  refine ⟨by simp, fun p hp => ?_, by simp⟩
  rw [← Option.some.inj hp]
  exact h

/-- Every page of the loop is fresh. -/
def freshLoop : List ℕ → Allocator → Bool
  | [], _ => true
  | n :: rest, a => decide (FreshPages a (0x10000 + 0x8000 * n)) &&
    match memorySlabCreateCache none (some (0x10000 + 0x8000 * n)) (cachename n) n a with
    | .ok (_, a) => freshLoop rest a
    | .error _ => true

theorem granted_of_fresh {l : List ℕ} {a : Allocator} (h : freshLoop l a = true) :
    Granted slabPages l a := by
  induction l generalizing a with
  | nil => trivial
  | cons n l ih =>
    rw [freshLoop, Bool.and_eq_true, decide_eq_true_eq] at h
    refine ⟨grants_slab h.1, ?_⟩
    have hrest := h.2
    show match memorySlabCreateCache none (some (0x10000 + 0x8000 * n)) (cachename n) n a with
      | .ok (_, a) => Granted slabPages l a
      | .error _ => True
    split at hrest
    · exact ih hrest
    · trivial

def kmallocReady : Allocator :=
  match kmallocInit slabPages onlySlabCache with
  | .ok (_, a) => a
  | .error _ => onlySlabCache

theorem kmallocReady_initialised : Initialised kmallocReady := by
  have hret : (kmallocInit slabPages onlySlabCache).toOption.map Prod.fst = some 0 := by decide +kernel
  refine ⟨onlySlabCache, slabPages, kmallocReady, onlySlabCache_reaches,
    granted_of_fresh (by decide +kernel), ?_, .refl⟩
  unfold kmallocReady
  cases heq : kmallocInit slabPages onlySlabCache with
  | error e => rw [heq] at hret; cases hret
  | ok r =>
    rw [heq] at hret
    obtain ⟨ret, a⟩ := r
    cases hret
    rfl

theorem kmalloc_never_under_iff_nine_bytes :
    FitsInt none 9 kmallocReady ∧ NeverUnder none 9 kmallocReady := by
  have hfits : FitsInt none 9 kmallocReady := .inl (by decide)
  exact ⟨hfits, (kmalloc_never_under_iff kmallocReady_initialised (by simp) 9).mpr hfits⟩

/-- A request of 4 GiB gets an object of 8 bytes. -/
theorem kmalloc_four_gib : Initialised kmallocReady ∧
    (kmalloc none (2 ^ 32) kmallocReady).toOption.bind Prod.fst = some 0x50e80 ∧
    ¬ NeverUnder none (2 ^ 32) kmallocReady := by
  have hobj : (kmalloc none (2 ^ 32) kmallocReady).toOption.bind Prod.fst = some 0x50e80 := by
    decide +kernel
  refine ⟨kmallocReady_initialised, hobj, ?_⟩
  rintro ⟨r, a', heq, -, hnull⟩
  rw [heq] at hobj
  have hr : r = some 0x50e80 := hobj
  rw [(hnull (by decide)).1] at hr
  cases hr

end Advos.Slab
