import Advos.Slab.Kmalloc

/-! The objects of a cache that are in use.

    An allocation adds one object to them and the release of that object takes it out again; both leave the objects
    of the other caches alone. This needs no order of the lists: the slab of the object that was handed out last
    stands at the head of `partial`, or of `empty` when the object was its last one, and there it is found again.

        alloc        partial ─▶ s ─▶ …                    empty ─▶ s ─▶ …
        free         finds s at once                      searches partial first, then finds s at once

    A search of a cyclic `partial` list does not end, so what is said of a release is said of one that returns. -/

namespace Advos.Slab
open Linked Word List

/-- An object in use whose slab the search of `memory_slab_free` meets first. -/
def Handy (a : Allocator) (c obj : ℕ) : Prop :=
  ∃ s ∈ slabsOf a c, ((a.cache c).partialHead = some s ∨ (a.cache c).emptyHead = some s) ∧
    ∃ i, InUse a (a.cache c).size obj s i

section Objects
variable {a a' : Allocator} {c d s i obj x : ℕ} {name : List UInt8}

theorem mem_slabsOf : s ∈ slabsOf a c ↔ s ∈ a.slabs ∧ (a.hdr s).cache = some c := by
  simp [slabsOf]

/-! ### Slabs of one cache -/

namespace Owned

theorem laid (h : Owned a) (hs : s ∈ slabsOf a c) : Laid (a.cache c).size s (a.hdr s) := by
  obtain ⟨hmem, hown⟩ := mem_slabsOf.mp hs
  obtain ⟨x, -, hx, hlaid⟩ := h.slab s hmem
  obtain rfl : x = c := Option.some.inj (hx.symm.trans hown)
  exact hlaid

theorem laidOut (h : Owned a) (hsize : (a.cache c).size < 2 ^ 64 - 1) :
    LaidOut a (a.cache c).size (slabsOf a c) where
  size_lt := hsize
  pages := fun s hs => h.pages s (mem_slabsOf.mp hs).1
  apart := fun s hs t ht hne => by
    have : Std.Symm Apart := ⟨fun _ _ hab => hab.symm⟩
    exact h.apart.forall (mem_slabsOf.mp hs).1 (mem_slabsOf.mp ht).1 hne
  nobjs := fun s hs => (h.laid hs).nobjs
  objHead := fun s hs => (h.laid hs).objHead

theorem index_lt (h : Owned a) (hs : s ∈ slabsOf a c) {b : Bool} (hmark : (a.hdr s).marks[i]? = some b) :
    i < objCount (a.cache c).size := by
  rw [← (h.laid hs).marks]
  exact (List.getElem?_eq_some_iff.mp hmark).1

/-- Which objects are in use depends on the marks of the slabs only. -/
theorem objectOf_congr (h : Owned a) (h' : Owned a') (hsize : (a'.cache c).size = (a.cache c).size)
    (hslabs : slabsOf a' c = slabsOf a c) (hmarks : ∀ s ∈ slabsOf a c, (a'.hdr s).marks = (a.hdr s).marks) :
    ObjectOf a' c x ↔ ObjectOf a c x := by
  unfold ObjectOf
  rw [hslabs, hsize]
  refine exists_congr fun s => and_congr_right fun hs => exists_congr fun i => ?_
  have hhead : (a'.hdr s).objHead = (a.hdr s).objHead := by
    rw [(h'.laid (hslabs ▸ hs)).objHead, (h.laid hs).objHead, hsize]
  rw [InUse, InUse, hmarks s hs, hhead]

end Owned

theorem Unallocated.objectOf_iff (hu : Unallocated a a') (h : Owned a) (hm : Moved d a a') :
    ObjectOf a' c x ↔ ObjectOf a c x := by
  refine h.objectOf_congr hm.owned (hm.sizes c) ?_ fun s _ => hu.2 s
  unfold slabsOf
  rw [hu.1]
  exact filter_congr fun s hs => by rw [hm.owner s hs]

theorem Unallocated.trans {a1 a2 a3 : Allocator} (h : Unallocated a1 a2) (h' : Unallocated a2 a3) :
    Unallocated a1 a3 :=
  ⟨h'.1.trans h.1, fun s => (h'.2 s).trans (h.2 s)⟩

/-! ### A call on another cache -/

namespace Moved

theorem hdr_other (h : Moved d a a') (hne : d ≠ c) (hs : s ∈ slabsOf a c) : a'.hdr s = a.hdr s := by
  obtain ⟨hmem, hown⟩ := mem_slabsOf.mp hs
  refine h.hdrs s hmem ?_
  rw [hown]
  exact fun heq => hne (Option.some.inj heq).symm

theorem objectOf_other (h : Moved d a a') (ho : Owned a) (hne : d ≠ c) : ObjectOf a' c x ↔ ObjectOf a c x :=
  ho.objectOf_congr h.owned (h.sizes c) (h.slabsOf_other hne) fun s hs => by rw [h.hdr_other hne hs]

theorem handy_other (h : Moved d a a') (hne : d ≠ c) (hh : Handy a c obj) : Handy a' c obj := by
  obtain ⟨s, hs, hhead, i, hu⟩ := hh
  refine ⟨s, by rw [h.slabsOf_other hne]; exact hs, ?_, i, ?_⟩
  · rw [h.others c hne.symm]
    exact hhead
  · rw [h.others c hne.symm, InUse, h.hdr_other hne hs]
    exact hu

theorem exhausted_other (h : Moved d a a') (ho : Owned a) (hc : c ∈ a.root.caches) (hne : d ≠ c)
    (pages : Option ℕ) : Exhausted a' c pages ↔ Exhausted a c pages := by
  obtain ⟨hpart, hfull, -⟩ := ho.heads c hc
  have hfirst : firstSlab a' c = firstSlab a c := by rw [firstSlab, firstSlab, h.others c hne.symm]
  unfold Exhausted
  rw [hfirst]
  cases hs : firstSlab a c with
  | none => rfl
  | some s =>
    have hown : s ∈ slabsOf a c := by
      rcases Option.or_eq_some_iff.mp hs with hs | ⟨-, hs⟩
      · exact mem_slabsOf.mpr (hpart s hs)
      · exact mem_slabsOf.mpr (hfull s hs)
    dsimp only
    rw [h.hdr_other hne hown]

end Moved

/-! ### Marks -/

/-- TAKEN: clearing a mark adds the object. -/
theorem objectOf_take (h : Owned a) (hsize : (a.cache c).size < 2 ^ 64 - 1) (hpos : 1 ≤ (a.cache c).size)
    (hs : s ∈ slabsOf a c) (hmark : (a.hdr s).marks[i]? = some true) {k : ℤ}
    (hobj : obj = (a.hdr s).objHead + (a.cache c).size * i) :
    ¬ ObjectOf a c obj ∧ ∀ x, ObjectOf
      (a.setHdr s { a.hdr s with marks := (a.hdr s).marks.set i false, nused := k }) c x ↔
        x = obj ∨ ObjectOf a c x := by
  have hfree : ∀ {x t j : ℕ}, InUse a (a.cache c).size x t j → ¬ (t = s ∧ j = i) := by
    rintro x t j hu ⟨rfl, rfl⟩
    have := hu.1
    rw [hmark] at this
    cases this
  refine ⟨?_, fun x => ?_⟩
  · rintro ⟨t, ht, j, hu⟩
    obtain ⟨rfl, rfl⟩ := (h.laidOut hsize).object_inj hpos hs ht (h.index_lt hs hmark) (h.index_lt ht hu.1)
      (hobj.symm.trans hu.2)
    exact hfree hu ⟨rfl, rfl⟩
  · rw [ObjectOf, slabsOf_setMarks]
    constructor
    · rintro ⟨t, ht, j, hu⟩
      by_cases hij : t = s ∧ j = i
      · obtain ⟨rfl, rfl⟩ := hij
        have hx := hu.2
        rw [hdr_setHdr_self] at hx
        exact .inl (hx.trans hobj.symm)
      · exact .inr ⟨t, ht, j, (inUse_setMark hij).mp hu⟩
    · rintro (rfl | ⟨t, ht, j, hu⟩)
      · refine ⟨s, hs, i, ?_, ?_⟩
        · obtain ⟨hi, -⟩ := List.getElem?_eq_some_iff.mp hmark
          simp [hi]
        · rw [hdr_setHdr_self]
          exact hobj
      · exact ⟨t, ht, j, (inUse_setMark (hfree hu)).mpr hu⟩

/-- PUT: setting the mark of an object in use takes it out. -/
theorem objectOf_put (h : Owned a) (hsize : (a.cache c).size < 2 ^ 64 - 1) (hpos : 1 ≤ (a.cache c).size)
    (hs : s ∈ slabsOf a c) (hu : InUse a (a.cache c).size obj s i) {k : ℤ} (x : ℕ) :
    ObjectOf (a.setHdr s { a.hdr s with marks := (a.hdr s).marks.set i true, nused := k }) c x ↔
      x ≠ obj ∧ ObjectOf a c x := by
  rw [ObjectOf, slabsOf_setMarks]
  constructor
  · rintro ⟨t, ht, j, hv⟩
    have hij : ¬ (t = s ∧ j = i) := by
      rintro ⟨rfl, rfl⟩
      obtain ⟨hi, -⟩ := List.getElem?_eq_some_iff.mp hu.1
      have := hv.1
      simp [hi] at this
    have hold := (inUse_setMark hij).mp hv
    refine ⟨?_, t, ht, j, hold⟩
    rintro rfl
    exact hij ((h.laidOut hsize).object_inj hpos ht hs (h.index_lt ht hold.1) (h.index_lt hs hu.1)
      (hold.2.symm.trans hu.2))
  · rintro ⟨hne, t, ht, j, hv⟩
    refine ⟨t, ht, j, (inUse_setMark ?_).mpr hv⟩
    rintro ⟨rfl, rfl⟩
    exact hne (hv.2.trans hu.2.symm)

theorem objectOf_addSlab {p : ℕ} (hp : FreshPages a p) : ObjectOf (addSlab a c p) c x ↔ ObjectOf a c x := by
  have hold : ∀ {s}, s ∈ a.slabs → (addSlab a c p).hdr s = a.hdr s := by
    intro s hs
    refine hdr_addSlab_of_ne ?_
    rintro rfl
    exact not_apart_self s (hp.2 s hs)
  constructor
  · rintro ⟨s, hs, i, hu⟩
    obtain ⟨hmem, hown⟩ := mem_slabsOf.mp hs
    rcases mem_cons.mp hmem with rfl | hmem
    · have := hu.1
      rw [hdr_addSlab_self] at this
      exact absurd (eq_of_mem_replicate (mem_of_getElem? this)) (by simp)
    · rw [hold hmem] at hown
      rw [InUse, hold hmem] at hu
      exact ⟨s, mem_slabsOf.mpr ⟨hmem, hown⟩, i, hu⟩
  · rintro ⟨s, hs, i, hu⟩
    obtain ⟨hmem, hown⟩ := mem_slabsOf.mp hs
    refine ⟨s, mem_slabsOf.mpr ⟨mem_cons_of_mem _ hmem, by rw [hold hmem]; exact hown⟩, i, ?_⟩
    rw [InUse, hold hmem]
    exact hu

/-! ### Allocation -/

theorem takeFull_unallocated (heq : takeFull c a = .ok a') : Unallocated a a' := by
  rcases takeFull_cases heq with ⟨rfl, -⟩ | ⟨s, -, -, rfl⟩
  · exact ⟨rfl, fun _ => rfl⟩
  · exact ⟨rfl, fun _ => rfl⟩

theorem settle_unallocated (c s : ℕ) (a : Allocator) : Unallocated a (settle c s a) :=
  ⟨settle_slabs c s a, fun t => (settle_hdr c s t a).1⟩

/-- The slab of the object is at the head of `partial` or of `empty` afterwards. -/
theorem settle_head (hs : (a.cache c).partialHead = some s) :
    ((settle c s a).cache c).partialHead = some s ∨ ((settle c s a).cache c).emptyHead = some s := by
  unfold settle
  split
  · right
    simp [Allocator.setCache]
  · exact .inl hs

/-- The objects of cache `c` from `a` to `a'`, when `obj` is handed out. -/
structure Took (a a' : Allocator) (c obj : ℕ) : Prop where
  free : ¬ ObjectOf a c obj
  objects : ∀ x, ObjectOf a' c x ↔ x = obj ∨ ObjectOf a c x
  handy : Handy a' c obj

theorem allocObject_took (h : Owned a) (hc : c ∈ a.root.caches) (hsize : (a.cache c).size < 2 ^ 64 - 1)
    (hpos : 1 ≤ (a.cache c).size) (heq : allocObject c a = .ok (some obj, a')) : Took a a' c obj := by
  obtain ⟨a1, s, htake, hpart, hobj, rfl⟩ := allocObject_cases heq
  have h1 := takeFull_moved h hc htake
  have hsame := fun x => (takeFull_unallocated htake).objectOf_iff (c := c) (x := x) h h1
  have hc1 := h1.caches hc
  have hown : Own a1 c (some s) := hpart ▸ (h1.owned.heads c hc1).1
  have hs := mem_slabsOf.mpr (hown s rfl)
  rw [← h1.size] at hsize hpos
  rcases takeObject_cases c s a1 with ⟨-, hnone⟩ | ⟨i, hmark, hsome⟩
  · rw [hnone] at hobj
    cases hobj
  rw [hsome] at hobj ⊢
  have haddr : obj = (a1.hdr s).objHead + (a1.cache c).size * i :=
    (Option.some.inj hobj).trans ((h1.owned.laidOut hsize).address hs (h1.owned.index_lt hs hmark))
  obtain ⟨hfree, hadd⟩ := objectOf_take h1.owned hsize hpos hs hmark haddr
  have h2 := h1.owned.setMarks (hown s rfl).2 (m := (a1.hdr s).marks.set i false) (k := (a1.hdr s).nused + 1)
    length_set
  have h3 := settle_moved h2.owned (h2.caches hc1) (h2.own hown)
  have hlast := settle_unallocated c s (a1.setHdr s
    { a1.hdr s with marks := (a1.hdr s).marks.set i false, nused := (a1.hdr s).nused + 1 })
  refine ⟨fun hx => hfree ((hsame obj).mpr hx), fun x => ?_, s, ?_, settle_head hpart, i, ?_⟩
  · rw [hlast.objectOf_iff h2.owned h3, hadd, hsame]
  · exact mem_slabsOf.mpr (h3.own (h2.own hown) s rfl)
  · obtain ⟨hi, -⟩ := List.getElem?_eq_some_iff.mp hmark
    obtain ⟨hmarks, hhead, -⟩ := settle_hdr c s s (a1.setHdr s
      { a1.hdr s with marks := (a1.hdr s).marks.set i false, nused := (a1.hdr s).nused + 1 })
    rw [InUse, hmarks, hhead, h3.size, h2.size, hdr_setHdr_self]
    exact ⟨by simp [hi], haddr⟩

theorem slabAlloc_took (h : Owned a) (hfind : findSlabCache a.cache a.root name = some c)
    (hsize : (a.cache c).size < 2 ^ 64 - 1) (hpos : 1 ≤ (a.cache c).size) {pages : Option ℕ}
    (hp : ∀ p, pages = some p → FreshPages a p) (heq : slabAlloc pages name a = .ok (some obj, a')) :
    Took a a' c obj := by
  have hc := (findSlabCache_mem hfind).1
  rw [slabAlloc, hfind] at heq
  obtain ⟨⟨b, a1⟩, hensure, heq⟩ := returned heq
  have h1 := ensureSlab_moved h hc hp hensure
  have hsame : ∀ x, ObjectOf a1 c x ↔ ObjectOf a c x := by
    intro x
    rcases ensureSlab_cases hensure with ⟨rfl, -⟩ | ⟨p, rfl, -, rfl⟩
    · rfl
    · obtain ⟨hadd, hown⟩ := h.addSlab hc (hp p rfl)
      have hheads := hadd.owned.setHeads own_none hown (hadd.owned.heads c hc).2.2
      have hlinks : Unallocated (addSlab a c p)
          (setHeads (addSlab a c p) c none (some p) (a.cache c).emptyHead) := ⟨rfl, fun _ => rfl⟩
      exact (hlinks.objectOf_iff hadd.owned hheads).trans (objectOf_addSlab (hp p rfl))
  cases b with
  | false => cases (Prod.mk.inj (Except.ok.inj heq)).1
  | true =>
    obtain ⟨hfree, hobjects, hhandy⟩ := allocObject_took h1.owned (h1.caches hc)
      (by rw [h1.size]; exact hsize) (by rw [h1.size]; exact hpos) heq
    exact ⟨fun hx => hfree ((hsame obj).mpr hx), fun x => by rw [hobjects, hsame], hhandy⟩

theorem Took.undone {a'' : Allocator} (h : Took a a' c obj)
    (hput : ∀ x, ObjectOf a'' c x ↔ x ≠ obj ∧ ObjectOf a' c x) (x : ℕ) : ObjectOf a'' c x ↔ ObjectOf a c x := by
  rw [hput, h.objects]
  constructor
  · rintro ⟨hne, hx⟩
    exact hx.resolve_left hne
  · intro hx
    refine ⟨?_, .inr hx⟩
    rintro rfl
    exact h.free hx

/-! ### Release -/

/-- The search meets no other slab that holds the object, and it meets the slab at the head. -/
theorem findSlabForObject_handy (h : Owned a) (hsize : (a.cache c).size < 2 ^ 64 - 1)
    (hpos : 1 ≤ (a.cache c).size) (hs : s ∈ slabsOf a c) (hu : InUse a (a.cache c).size obj s i)
    {head r : Option ℕ} (hh : Own a c head) (heq : findSlabForObject a (a.cache c).size head obj = .ok r) :
    r = some s ∨ r = none ∧ head ≠ some s := by
  obtain ⟨hlo, hhi⟩ := LaidOut.object_bounds hpos (h.index_lt hs hu.1) (a.hdr s).objHead
  rw [← hu.2] at hlo hhi
  have hholds : ∀ {t}, t ∈ slabsOf a c → (holds a (a.cache c).size obj t = true ↔ t = s) :=
    fun ht => (h.laidOut hsize).holds_iff_eq hs ht hlo hhi
  cases r with
  | some t =>
    left
    have ht := mem_slabsOf.mpr (findSlabForObject_own h hh heq t rfl)
    unfold findSlabForObject at heq
    split at heq
    · cases heq
    · rename_i hwalk
      cases heq
      rw [(hholds ht).mp (walk_meets hwalk)]
  | none =>
    refine .inr ⟨rfl, ?_⟩
    rintro rfl
    obtain ⟨n, hn⟩ := Nat.exists_eq_succ_of_ne_zero
      (length_pos_of_mem (mem_slabsOf.mp hs).1).ne'
    rw [findSlabForObject, hn, walk, (hholds hs).mpr rfl, if_pos rfl] at heq
    cases Except.ok.inj heq

theorem findOwner_handy (h : Owned a) (hc : c ∈ a.root.caches) (hsize : (a.cache c).size < 2 ^ 64 - 1)
    (hpos : 1 ≤ (a.cache c).size) (hs : s ∈ slabsOf a c) (hu : InUse a (a.cache c).size obj s i)
    (hhead : (a.cache c).partialHead = some s ∨ (a.cache c).emptyHead = some s) {r : Option (Bool × ℕ)}
    (heq : findOwner a c obj = .ok r) : ∃ wasPartly, r = some (wasPartly, s) := by
  obtain ⟨hp, -, he⟩ := h.heads c hc
  unfold findOwner at heq
  obtain ⟨r1, hr1, heq⟩ := returned heq
  rcases findSlabForObject_handy h hsize hpos hs hu hp hr1 with rfl | ⟨rfl, hnot⟩
  · exact ⟨true, (Except.ok.inj heq).symm⟩
  obtain ⟨r2, hr2, heq⟩ := returned heq
  rcases findSlabForObject_handy h hsize hpos hs hu he hr2 with rfl | ⟨-, hnot'⟩
  · exact ⟨false, (Except.ok.inj heq).symm⟩
  · exact absurd hhead (not_or.mpr ⟨hnot, hnot'⟩)

theorem unlinkSlab_unallocated {head head' : Option ℕ} (heq : unlinkSlab a s head = .ok (head', a')) :
    Unallocated a a' := by
  unfold unlinkSlab at heq
  split at heq
  · cases heq
  · cases heq
    exact ⟨rfl, fun _ => rfl⟩

theorem relink_unallocated (a : Allocator) (c s : ℕ) (v : Option ℕ) (w : Cache) :
    Unallocated a ((a.setHdr s { a.hdr s with next := v }).setCache c w) := by
  rw [setHdr_next]
  exact ⟨rfl, fun _ => rfl⟩

theorem leaveEmpty_unallocated {wasPartly : Bool} (heq : leaveEmpty c s wasPartly a = .ok a') :
    Unallocated a a' := by
  unfold leaveEmpty at heq
  split at heq
  · cases heq
    exact ⟨rfl, fun _ => rfl⟩
  · unfold emptyToPartial at heq
    obtain ⟨⟨head, a1⟩, hunlink, heq⟩ := returned heq
    cases heq
    exact (unlinkSlab_unallocated hunlink).trans (relink_unallocated ..)

theorem enterFull_unallocated (heq : enterFull c s a = .ok a') : Unallocated a a' := by
  unfold enterFull at heq
  split at heq
  · unfold partialToFull at heq
    obtain ⟨⟨head, a1⟩, hunlink, heq⟩ := returned heq
    cases heq
    exact (unlinkSlab_unallocated hunlink).trans (relink_unallocated ..)
  · cases heq
    exact ⟨rfl, fun _ => rfl⟩

theorem freeObject_put (h : Owned a) (hc : c ∈ a.root.caches) (hsize : (a.cache c).size < 2 ^ 64 - 1)
    (hpos : 1 ≤ (a.cache c).size) (hs : s ∈ slabsOf a c) (hu : InUse a (a.cache c).size obj s i)
    {wasPartly : Bool} {ret : ℤ} (heq : freeObject c s obj wasPartly a = .ok (ret, a')) (x : ℕ) :
    ObjectOf a' c x ↔ x ≠ obj ∧ ObjectOf a c x := by
  have hown : Own a c (some s) := by
    rintro t ⟨⟩
    exact mem_slabsOf.mp hs
  have hmoved := freeObject_moved h hc hown heq
  unfold freeObject at heq
  obtain ⟨a1, hput, heq⟩ := returned heq
  obtain ⟨a2, hleave, heq⟩ := returned heq
  obtain ⟨a3, henter, heq⟩ := returned heq
  cases heq
  have h1 := putObject_moved h (hown s rfl).2 hput
  have hlinks := (leaveEmpty_unallocated hleave).trans (enterFull_unallocated henter)
  rw [(h.laidOut hsize).putObject_eq hpos rfl hs (h.index_lt hs hu.1) (le_of_eq hu.2.symm)
    (by rw [hu.2]; omega)] at hput
  cases hput
  rw [← objectOf_put h hsize hpos hs hu]
  refine h1.owned.objectOf_congr hmoved.owned (hmoved.size.trans h1.size.symm) ?_ fun t _ => hlinks.2 t
  unfold slabsOf
  rw [hlinks.1]
  refine filter_congr fun t ht => ?_
  rw [hmoved.owner t ht, h1.owner t ht]

theorem slabFree_put (h : Owned a) (hfind : findSlabCache a.cache a.root name = some c)
    (hsize : (a.cache c).size < 2 ^ 64 - 1) (hpos : 1 ≤ (a.cache c).size) (hh : Handy a c obj) {ret : ℤ}
    (heq : slabFree name obj a = .ok (ret, a')) (x : ℕ) : ObjectOf a' c x ↔ x ≠ obj ∧ ObjectOf a c x := by
  have hc := (findSlabCache_mem hfind).1
  obtain ⟨s, hs, hhead, i, hu⟩ := hh
  rw [slabFree, hfind] at heq
  obtain ⟨r, howner, heq⟩ := returned heq
  obtain ⟨wasPartly, rfl⟩ := findOwner_handy h hc hsize hpos hs hu hhead howner
  exact freeObject_put h hc hsize hpos hs hu heq x

/-! ### The two calls -/

/-- ALLOC: the exhausted cache answers NULL and its objects stay; any other hands out a new object. -/
theorem memorySlabAlloc_objects (h : Owned a) (hlock : a.lock = false)
    (hfind : findSlabCache a.cache a.root name = some c) (hpos : 1 ≤ (a.cache c).size)
    (hsize : (a.cache c).size < 32672) {pages : Option ℕ} (hp : ∀ p, pages = some p → FreshPages a p) :
    ∃ r a', memorySlabAlloc pages name a = .ok (r, a') ∧ a'.lock = false ∧ Moved c a a' ∧
      (∀ s ∈ a'.slabs, s ∈ a.slabs ∨ pages = some s) ∧
      ((Exhausted a c pages ∧ r = none ∧ ∀ x, ObjectOf a' c x ↔ ObjectOf a c x) ∨
        ¬ Exhausted a c pages ∧ ∃ obj, r = some obj ∧ Took a a' c obj) := by
  rcases slabAlloc_outcome (h.setLock true) hfind hsize hp with ⟨hex, a1, heq, hun⟩ | ⟨hex, obj, a1, heq, -⟩
  · have hm := slabAlloc_moved (h.setLock true) hp hfind heq
    have hslabs := slabAlloc_slabs heq
    refine ⟨none, _, returns_locked hlock heq, rfl, hm.unlock, hslabs, .inl ⟨hex, rfl, fun x => ?_⟩⟩
    exact hun.objectOf_iff (h.setLock true) hm
  · have hm := slabAlloc_moved (h.setLock true) hp hfind heq
    have hslabs := slabAlloc_slabs heq
    refine ⟨some obj, _, returns_locked hlock heq, rfl, hm.unlock, hslabs, .inr ⟨hex, obj, rfl, ?_⟩⟩
    obtain ⟨hfree, hobjects, hhandy⟩ := slabAlloc_took (h.setLock true) hfind
      (lt_trans hsize (by decide)) hpos hp heq
    exact ⟨hfree, hobjects, hhandy⟩

/-- FREE: the object handed out last is taken out, if the call returns. -/
theorem memorySlabFree_objects (h : Owned a) (hfind : findSlabCache a.cache a.root name = some c)
    (hpos : 1 ≤ (a.cache c).size) (hsize : (a.cache c).size < 32672) (hh : Handy a c obj) {ret : ℤ}
    (heq : memorySlabFree name obj a = .ok (ret, a')) :
    Moved c a a' ∧ ∀ x, ObjectOf a' c x ↔ x ≠ obj ∧ ObjectOf a c x := by
  obtain ⟨-, a1, hcall, rfl⟩ := locked_returned heq
  refine ⟨(slabFree_moved (h.setLock true) hfind hcall).unlock, fun x => ?_⟩
  exact slabFree_put (h.setLock true) hfind (lt_trans hsize (by decide)) hpos hh hcall x

end Objects

end Advos.Slab
