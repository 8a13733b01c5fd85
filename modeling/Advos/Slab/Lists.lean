import Advos.Slab.Allocator

/-! What the parts of a call do to the lists of a cache.

    `Core name c a out P F E`: the three lists of cache `c` are the chains `P`, `F`, `E`, which hold
    every slab of the cache once, each slab is laid out as `_new_slab` made it, `nused` counts its
    cleared marks, and the objects that are out have cleared marks at different addresses. Moving a
    slab from one list to another changes links only (`Core.relink`), taking or putting an object
    changes one slab's marks only (`Core.remark`). -/

namespace Advos.Slab
open Linked Word Function List

/-! ### Layout -/

theorem objCount_eq {size : ℕ} (h : size < 2 ^ 64 - 1) : objCount size = 32672 / (size + 1) := by
  rw [objCount, add64_of_lt (by omega)]
  rfl

theorem objCount_pos {size : ℕ} (h : size < 32672) : 0 < objCount size := by
  rw [objCount_eq (by omega)]
  exact Nat.div_pos (by omega) (by omega)

/-- The layout of the slab at `s`: header, marks, then the objects from a multiple of 64 on, all inside. -/
theorem objStart_layout {size s : ℕ} (h : size < 2 ^ 64 - 1) (hs : s + slabBytes ≤ 2 ^ 64) :
    s + hdrSize + objCount size ≤ objStart s (objCount size) ∧ objStart s (objCount size) % slabAlignment = 0 ∧
      objStart s (objCount size) + size * objCount size < s + slabBytes := by
  have hcnt : objCount size * (size + 1) ≤ 32672 := by
    rw [objCount_eq h]; exact Nat.div_mul_le_self _ _
  have hexp : objCount size * (size + 1) = size * objCount size + objCount size := by
    rw [Nat.mul_add, Nat.mul_one, Nat.mul_comm]
  rw [hexp] at hcnt
  generalize size * objCount size = total at *
  generalize objCount size = n at *
  have hb : slabBytes = 32768 := rfl
  have h1 : add64 s hdrSize = s + 32 := add64_of_lt (by rw [hdrSize]; omega)
  have h2 : add64 (s + 32) n = s + 32 + n := add64_of_lt (by omega)
  have h3 : add64 (s + 32 + n) (slabAlignment - 1) = s + 32 + n + 63 :=
    add64_of_lt (by rw [slabAlignment]; omega)
  rw [objStart, h1, h2, h3, slabAlignment, hdrSize]
  omega

theorem objStart_bounds {size s : ℕ} (h : size < 2 ^ 64 - 1) (hs : s + slabBytes ≤ 2 ^ 64) :
    s ≤ objStart s (objCount size) ∧
      objStart s (objCount size) + size * objCount size < s + slabBytes := by
  obtain ⟨hstart, -, hend⟩ := objStart_layout h hs
  exact ⟨by omega, hend⟩

theorem object_address {size s i : ℕ} (h : size < 2 ^ 64 - 1) (hs : s + slabBytes ≤ 2 ^ 64)
    (hi : i < objCount size) : add64 (objStart s (objCount size)) (mul64 size i) =
      objStart s (objCount size) + size * i := by
  have hb := objStart_bounds h hs
  have hle : size * i ≤ size * objCount size := Nat.mul_le_mul_left _ (le_of_lt hi)
  rw [mul64_of_lt (by omega), add64_of_lt (by omega)]

/-- The header of the slab at `s` of a cache for objects of `size` bytes. -/
structure SlabOk (size s : ℕ) (h : Hdr) : Prop where
  nobjs : h.nobjs = objCount size
  objHead : h.objHead = objStart s (objCount size)
  marks : h.marks.length = objCount size
  nused : h.nused = h.marks.count false

/-- The `next` links of all slabs. -/
def nexts (a : Allocator) : ℕ → Option ℕ := fun s => (a.hdr s).next

/-- Object `i` of slab `s` is in use, at address `obj`. -/
def InUse (a : Allocator) (size obj s i : ℕ) : Prop :=
  (a.hdr s).marks[i]? = some false ∧ obj = (a.hdr s).objHead + size * i

/-- Slabs of a cache for objects of `size` bytes: apart from one another, with the counts and the object arrays
    that `_new_slab` gave them. -/
structure LaidOut (a : Allocator) (size : ℕ) (l : List ℕ) : Prop where
  size_lt : size < 2 ^ 64 - 1
  pages : ∀ s ∈ l, s + slabBytes ≤ 2 ^ 64
  apart : ∀ s ∈ l, ∀ t ∈ l, s ≠ t → Apart s t
  nobjs : ∀ s ∈ l, (a.hdr s).nobjs = objCount size
  objHead : ∀ s ∈ l, (a.hdr s).objHead = objStart s (objCount size)

theorem object_end_le {i : ℕ} (size : ℕ) (hi : i < objCount size) : size * i + size ≤ size * objCount size := by
  rw [← Nat.mul_succ]
  exact Nat.mul_le_mul_left size hi

namespace LaidOut
variable {a : Allocator} {size s t i j x : ℕ} {l : List ℕ}

section
variable (h : LaidOut a size l) (hs : s ∈ l)
include h hs

theorem array_bounds (hlo : (a.hdr s).objHead ≤ x) (hhi : x < (a.hdr s).objHead + size * objCount size) :
    s ≤ x ∧ x < s + slabBytes := by
  obtain ⟨hstart, hend⟩ := objStart_bounds h.size_lt (h.pages s hs)
  rw [h.objHead s hs] at hlo hhi
  exact ⟨le_trans hstart hlo, lt_trans hhi hend⟩

theorem eq_of_meet (ht : t ∈ l) (hxs : (a.hdr s).objHead ≤ x ∧ x < (a.hdr s).objHead + size * objCount size)
    (hxt : (a.hdr t).objHead ≤ x ∧ x < (a.hdr t).objHead + size * objCount size) : s = t := by
  obtain ⟨hs1, hs2⟩ := h.array_bounds hs hxs.1 hxs.2
  obtain ⟨ht1, ht2⟩ := h.array_bounds ht hxt.1 hxt.2
  by_contra hne
  rcases h.apart s hs t ht hne with hap | hap <;> omega

theorem holds_iff :
    holds a size x s = true ↔ (a.hdr s).objHead ≤ x ∧ x < (a.hdr s).objHead + size * objCount size := by
  have hpages := h.pages s hs
  obtain ⟨-, hend⟩ := objStart_bounds h.size_lt hpages
  have hmul : mul64 size (objCount size) = size * objCount size := mul64_of_lt (by omega)
  have hadd : add64 (a.hdr s).objHead (size * objCount size) = (a.hdr s).objHead + size * objCount size := by
    rw [h.objHead s hs]
    exact add64_of_lt (by omega)
  rw [holds, h.nobjs s hs, hmul, hadd, decide_eq_true_eq]

theorem holds_iff_eq (ht : t ∈ l) (hlo : (a.hdr s).objHead ≤ x)
    (hhi : x < (a.hdr s).objHead + size * objCount size) : holds a size x t = true ↔ t = s := by
  rw [h.holds_iff ht]
  constructor
  · intro hx
    exact h.eq_of_meet ht hs hx ⟨hlo, hhi⟩
  · rintro rfl
    exact ⟨hlo, hhi⟩

theorem address (hi : i < objCount size) :
    add64 (a.hdr s).objHead (mul64 size i) = (a.hdr s).objHead + size * i := by
  rw [h.objHead s hs]
  exact object_address h.size_lt (h.pages s hs) hi

end

theorem object_bounds (hpos : 1 ≤ size) (hi : i < objCount size) (head : ℕ) :
    head ≤ head + size * i ∧ head + size * i < head + size * objCount size := by
  have hle := object_end_le size hi
  omega

theorem object_inj (h : LaidOut a size l) (hpos : 1 ≤ size) (hs : s ∈ l) (ht : t ∈ l) (hi : i < objCount size)
    (hj : j < objCount size) (heq : (a.hdr s).objHead + size * i = (a.hdr t).objHead + size * j) :
    s = t ∧ i = j := by
  obtain rfl := h.eq_of_meet hs ht (object_bounds hpos hi _) (heq ▸ object_bounds hpos hj _)
  exact ⟨rfl, Nat.eq_of_mul_eq_mul_left hpos (Nat.add_left_cancel heq)⟩

/-- INDEX: `memory_slab_free` computes the index of the object from any of its bytes. -/
theorem putObject_eq {c : ℕ} (h : LaidOut a size l) (hpos : 1 ≤ size) (hc : (a.cache c).size = size) (hs : s ∈ l)
    (hi : i < objCount size) (hlo : (a.hdr s).objHead + size * i ≤ x)
    (hhi : x < (a.hdr s).objHead + size * i + size) :
    putObject c s x a = .ok (a.setHdr s
      { a.hdr s with marks := (a.hdr s).marks.set i true, nused := (a.hdr s).nused - 1 }) := by
  have hpages := h.pages s hs
  have hle := object_end_le size hi
  have hbounds := h.array_bounds hs (x := x) (by omega) (by omega)
  have hidx : sub64 x (a.hdr s).objHead / (a.cache c).size = i := by
    rw [hc, sub64_of_le (by omega) (by omega)]
    refine Nat.div_eq_of_lt_le ?_ ?_
    · rw [Nat.mul_comm]
      omega
    · rw [Nat.mul_comm, Nat.mul_succ]
      omega
  rw [putObject, if_neg (by omega)]
  simp only [hidx, h.nobjs s hs, hi, if_true]
  rfl

end LaidOut

structure Core (name : List UInt8) (c : ℕ) (a : Allocator) (out P F E : List ℕ) : Prop where
  found : findSlabCache a.cache a.root name = some c
  size_pos : 1 ≤ (a.cache c).size
  size_lt : (a.cache c).size < 32672
  partialC : Chain (nexts a) (a.cache c).partialHead P
  fullC : Chain (nexts a) (a.cache c).fullHead F
  emptyC : Chain (nexts a) (a.cache c).emptyHead E
  members : (P ++ F ++ E).Perm (slabsOf a c)
  pages : ∀ s ∈ a.slabs, s + slabBytes ≤ 2 ^ 64
  apart : a.slabs.Pairwise Apart
  slab : ∀ s ∈ P ++ F ++ E, SlabOk (a.cache c).size s (a.hdr s)
  used : ∀ obj ∈ out, ∃ s ∈ P ++ F ++ E, ∃ i, InUse a (a.cache c).size obj s i
  out_nodup : out.Nodup

section Core
variable {name : List UInt8} {c : ℕ} {a : Allocator} {out P F E : List ℕ}

theorem Core.setLock (h : Core name c a out P F E) (b : Bool) :
    Core name c { a with lock := b } out P F E :=
  ⟨h.found, h.size_pos, h.size_lt, h.partialC, h.fullC, h.emptyC, h.members, h.pages, h.apart, h.slab,
    h.used, h.out_nodup⟩

theorem Core.size_lt' (h : Core name c a out P F E) : (a.cache c).size < 2 ^ 64 - 1 := by
  have := h.size_lt
  omega

theorem not_apart_self (s : ℕ) : ¬ Apart s s := by
  rintro (h | h)
  · exact Nat.not_succ_le_self s (le_trans (Nat.add_le_add_left (by decide : 1 ≤ slabBytes) s) h)
  · exact Nat.not_succ_le_self s (le_trans (Nat.add_le_add_left (by decide : 1 ≤ slabBytes) s) h)

namespace Core
variable (h : Core name c a out P F E)
include h

theorem slabs_nodup : a.slabs.Nodup := by
  refine h.apart.imp ?_
  rintro s t hst rfl
  exact not_apart_self s hst

theorem nodup : (P ++ F ++ E).Nodup :=
  h.members.nodup_iff.mpr (h.slabs_nodup.sublist filter_sublist)

theorem mem_slabs {s : ℕ} (hs : s ∈ P ++ F ++ E) :
    s ∈ a.slabs ∧ (a.hdr s).cache = some c := by
  have := h.members.mem_iff.mp hs
  simpa [slabsOf] using this

theorem length_le : (P ++ F ++ E).length ≤ a.slabs.length := by
  rw [h.members.length_eq]
  exact length_filter_le _ _

theorem laidOut : LaidOut a (a.cache c).size (P ++ F ++ E) where
  size_lt := h.size_lt'
  pages := fun s hs => h.pages s (h.mem_slabs hs).1
  apart := fun s hs t ht hne => by
    have : Std.Symm Apart := ⟨fun _ _ hab => hab.symm⟩
    exact h.apart.forall (h.mem_slabs hs).1 (h.mem_slabs ht).1 hne
  nobjs := fun s hs => (h.slab s hs).nobjs
  objHead := fun s hs => (h.slab s hs).objHead

theorem index_lt {s i obj : ℕ} (hs : s ∈ P ++ F ++ E) (hu : InUse a (a.cache c).size obj s i) :
    i < objCount (a.cache c).size := by
  rw [← (h.slab s hs).marks]
  exact (List.getElem?_eq_some_iff.mp hu.1).1

/-- Of the slabs of the cache exactly the owner of an object in use holds its address. -/
theorem holds_iff {s t i obj : ℕ} (hs : s ∈ P ++ F ++ E) (hu : InUse a (a.cache c).size obj s i)
    (ht : t ∈ P ++ F ++ E) :
    holds a (a.cache c).size obj t = true ↔ t = s := by
  obtain ⟨hlo, hhi⟩ := LaidOut.object_bounds h.size_pos (h.index_lt hs hu) (a.hdr s).objHead
  rw [hu.2]
  exact h.laidOut.holds_iff_eq hs ht hlo hhi

end Core

/-! ### Links -/

theorem findSlabCache_congr {cache cache' : ℕ → Cache} (h : ∀ x, (cache' x).name = (cache x).name) :
    ∀ (tree : CacheTree) (name : List UInt8),
      findSlabCache cache' tree name = findSlabCache cache tree name
  | .nil, _ => rfl
  | .node left x right, name => by
      rw [findSlabCache, findSlabCache, h, findSlabCache_congr h left, findSlabCache_congr h right]

/-- The heads of the three lists of a cache. -/
def setHeads (a : Allocator) (c : ℕ) (p f e : Option ℕ) : Allocator :=
  a.setCache c { a.cache c with partialHead := p, fullHead := f, emptyHead := e }

variable {p f e : Option ℕ}

theorem found_setHeads (h : findSlabCache a.cache a.root name = some c) :
    findSlabCache (setHeads a c p f e).cache a.root name = some c := by
  rw [← h]
  refine findSlabCache_congr (fun x => ?_) a.root name
  unfold setHeads Allocator.setCache
  by_cases hx : x = c
  · subst hx; simp
  · simp [hx]

theorem cache_setHeads : (setHeads a c p f e).cache c =
    { a.cache c with partialHead := p, fullHead := f, emptyHead := e } := update_self ..

theorem setHdr_next (s : ℕ) (v : Option ℕ) :
    a.setHdr s { a.hdr s with next := v } = a.setNexts (update (nexts a) s v) := by
  unfold Allocator.setHdr Allocator.setNexts nexts
  congr 1
  funext t
  by_cases hts : t = s
  · subst hts; simp
  · simp [hts]

theorem Core.relink (h : Core name c a out P F E) {n : ℕ → Option ℕ} {P' F' E' : List ℕ} (hp : Chain n p P')
    (hf : Chain n f F') (he : Chain n e E') (hperm : (P' ++ F' ++ E').Perm (P ++ F ++ E)) :
    Core name c (setHeads (a.setNexts n) c p f e) out P' F' E' := by
  have hcache : (setHeads (a.setNexts n) c p f e).cache c =
      { a.cache c with partialHead := p, fullHead := f, emptyHead := e } := cache_setHeads
  refine ⟨found_setHeads h.found, ?_, ?_, ?_, ?_, ?_, hperm.trans h.members, h.pages,
    h.apart, fun s hs => ?_, fun obj hobj => ?_, h.out_nodup⟩
  · rw [hcache]; exact h.size_pos
  · rw [hcache]; exact h.size_lt
  · rw [hcache]; exact hp
  · rw [hcache]; exact hf
  · rw [hcache]; exact he
  · obtain ⟨h1, h2, h3, h4⟩ := h.slab s (hperm.mem_iff.mp hs)
    rw [hcache]
    exact ⟨h1, h2, h3, h4⟩
  · obtain ⟨s, hs, i, hu⟩ := h.used obj hobj
    rw [hcache]
    exact ⟨s, hperm.mem_iff.mpr hs, i, hu⟩

/-! ### Marks -/

theorem slabsOf_setMarks (s : ℕ) (m : List Bool) (k : ℤ) :
    slabsOf (a.setHdr s { a.hdr s with marks := m, nused := k }) c = slabsOf a c := by
  refine filter_congr fun t _ => ?_
  by_cases hts : t = s
  · subst hts; simp [Allocator.setHdr]
  · simp [Allocator.setHdr, hts]

variable {s : ℕ} {m : List Bool}

theorem Core.remark (h : Core name c a out P F E) {k : ℤ} (hs : s ∈ P ++ F ++ E)
    (hlen : m.length = (a.hdr s).marks.length) (hk : k = m.count false) {out' : List ℕ}
    (hused : ∀ obj ∈ out', ∃ t ∈ P ++ F ++ E, ∃ i, InUse (a.setHdr s { a.hdr s with marks := m, nused := k }) (a.cache c).size obj t i)
    (hnd : out'.Nodup) :
    Core name c (a.setHdr s { a.hdr s with marks := m, nused := k }) out' P F E := by
  have hsame : ∀ t, t ≠ s → (a.setHdr s { a.hdr s with marks := m, nused := k }).hdr t = a.hdr t :=
    fun t ht => update_of_ne ht _ _
  have hnext : nexts (a.setHdr s { a.hdr s with marks := m, nused := k }) = nexts a := by
    funext t
    by_cases hts : t = s
    · subst hts; simp [nexts, Allocator.setHdr]
    · simp [nexts, hsame t hts]
  refine ⟨h.found, h.size_pos, h.size_lt, ?_, ?_, ?_, ?_, h.pages, h.apart,
    fun t ht => ?_, hused, hnd⟩
  · rw [hnext]; exact h.partialC
  · rw [hnext]; exact h.fullC
  · rw [hnext]; exact h.emptyC
  · rw [slabsOf_setMarks]; exact h.members
  · by_cases hts : t = s
    · subst hts
      obtain ⟨h1, h2, h3, -⟩ := h.slab t ht
      simp only [Allocator.setHdr, update_self]
      exact ⟨h1, h2, hlen.trans h3, hk⟩
    · rw [hsame t hts]; exact h.slab t ht

@[simp] theorem hdr_setHdr_self (s : ℕ) (v : Hdr) : (a.setHdr s v).hdr s = v :=
  update_self ..

theorem hdr_setHdr_of_ne {s t : ℕ} (h : t ≠ s) (v : Hdr) : (a.setHdr s v).hdr t = a.hdr t :=
  update_of_ne h _ _

/-- The other objects are in use as before when mark `i` of slab `s` is written. -/
theorem inUse_setMark {size obj s t i j : ℕ} {b : Bool} {k : ℤ} (hne : ¬ (t = s ∧ j = i)) :
    InUse (a.setHdr s { a.hdr s with marks := (a.hdr s).marks.set i b, nused := k }) size obj t j ↔
      InUse a size obj t j := by
  unfold InUse
  by_cases hts : t = s
  · subst hts
    have hji : i ≠ j := fun h => hne ⟨rfl, h.symm⟩
    rw [hdr_setHdr_self, List.getElem?_set_ne hji]
  · rw [hdr_setHdr_of_ne hts]

theorem Core.free_not_out (h : Core name c a out P F E) {s i : ℕ} (hs : s ∈ P ++ F ++ E)
    (hmark : (a.hdr s).marks[i]? = some true) : (a.hdr s).objHead + (a.cache c).size * i ∉ out := by
  intro hout
  have hi : i < objCount (a.cache c).size := by
    rw [← (h.slab s hs).marks]
    exact (List.getElem?_eq_some_iff.mp hmark).1
  obtain ⟨t, ht, j, hu⟩ := h.used _ hout
  obtain ⟨rfl, rfl⟩ := h.laidOut.object_inj h.size_pos hs ht hi (h.index_lt ht hu) hu.2
  have := hu.1
  rw [hmark] at this
  exact absurd this (by simp)

/-- A slab with fewer objects used than it has a free one, and the loop finds it. -/
theorem Core.exists_free (h : Core name c a out P F E) (hs : s ∈ P ++ F ++ E)
    (hfree : (a.hdr s).nused < (a.hdr s).nobjs) : ∃ i, (a.hdr s).marks.findIdx? id = some i ∧
      i < objCount (a.cache c).size ∧ (a.hdr s).marks[i]? = some true := by
  obtain ⟨hno, -, hlen, hnused⟩ := h.slab s hs
  have hex : ∃ b ∈ (a.hdr s).marks, id b = true := by
    by_contra hall
    have hcnt : (a.hdr s).marks.count false = (a.hdr s).marks.length := by
      refine count_eq_length.mpr fun b hb => ?_
      cases b with
      | false => rfl
      | true => exact absurd ⟨true, hb, rfl⟩ hall
    rw [hnused, hcnt, hlen, hno] at hfree
    exact lt_irrefl _ hfree
  obtain ⟨i, hi⟩ := Option.isSome_iff_exists.mp (List.findIdx?_isSome.trans (any_eq_true.mpr hex))
  obtain ⟨hilt, hmark, -⟩ := List.findIdx?_eq_some_iff_getElem.mp hi
  refine ⟨i, hi, hlen ▸ hilt, ?_⟩
  rw [List.getElem?_eq_getElem hilt]
  simpa using hmark

theorem count_set_false {i : ℕ} (h : m[i]? = some true) :
    ((m.set i false).count false : ℤ) = m.count false + 1 := by
  obtain ⟨hi, hm⟩ := List.getElem?_eq_some_iff.mp h
  rw [count_set hi]
  simp [hm]

theorem count_set_true {i : ℕ} (h : m[i]? = some false) :
    ((m.set i true).count false : ℤ) = m.count false - 1 := by
  obtain ⟨hi, hm⟩ := List.getElem?_eq_some_iff.mp h
  have hpos : 0 < m.count false := count_pos_iff.mpr (hm ▸ getElem_mem hi)
  rw [count_set hi]
  simp only [hm, beq_self_eq_true, if_true]
  simp
  omega

theorem takeObject_core (h : Core name c a out P F E) (hs : s ∈ P ++ F ++ E)
    (hfree : (a.hdr s).nused < (a.hdr s).nobjs) : ∃ obj m, obj ∉ out ∧
      takeObject c s a = (some obj, a.setHdr s
        { a.hdr s with marks := m, nused := (a.hdr s).nused + 1 }) ∧
      Core name c (a.setHdr s { a.hdr s with marks := m, nused := (a.hdr s).nused + 1 })
        (obj :: out) P F E := by
  obtain ⟨i, hfind, hi, hmark⟩ := h.exists_free hs hfree
  have hnot := h.free_not_out hs hmark
  refine ⟨(a.hdr s).objHead + (a.cache c).size * i, (a.hdr s).marks.set i false, hnot, ?_, ?_⟩
  · rw [takeObject, hfind]
    simp only [h.laidOut.address hs hi]
  · refine h.remark hs (by simp) ?_ (fun obj hobj => ?_) (nodup_cons.mpr ⟨hnot, h.out_nodup⟩)
    · rw [(h.slab s hs).nused, count_set_false hmark]
    · rcases mem_cons.mp hobj with rfl | hobj
      · refine ⟨s, hs, i, ?_, ?_⟩
        · rw [hdr_setHdr_self]
          simp [(h.slab s hs).marks, hi]
        · rw [hdr_setHdr_self]
      · obtain ⟨t, ht, j, hu⟩ := h.used obj hobj
        refine ⟨t, ht, j, (inUse_setMark ?_).mpr hu⟩
        rintro ⟨rfl, rfl⟩
        have := hu.1
        rw [hmark] at this
        exact absurd this (by simp)

/-- Putting back an object that is out: its index is found again, and it is out no more. -/
theorem putObject_core (h : Core name c a out P F E) {s i obj : ℕ} (hs : s ∈ P ++ F ++ E)
    (hu : InUse a (a.cache c).size obj s i) : ∃ m,
      putObject c s obj a = .ok (a.setHdr s
        { a.hdr s with marks := m, nused := (a.hdr s).nused - 1 }) ∧
      Core name c (a.setHdr s { a.hdr s with marks := m, nused := (a.hdr s).nused - 1 })
        (out.erase obj) P F E := by
  have hpos := h.size_pos
  refine ⟨(a.hdr s).marks.set i true, ?_, ?_⟩
  · exact h.laidOut.putObject_eq hpos rfl hs (h.index_lt hs hu) (le_of_eq hu.2.symm) (by rw [hu.2]; omega)
  · refine h.remark hs (by simp) ?_ (fun x hx => ?_) (h.out_nodup.erase obj)
    · rw [(h.slab s hs).nused, count_set_true hu.1]
    · obtain ⟨hne, hx⟩ := h.out_nodup.mem_erase_iff.mp hx
      obtain ⟨t, ht, j, hv⟩ := h.used x hx
      refine ⟨t, ht, j, (inUse_setMark ?_).mpr hv⟩
      rintro ⟨rfl, rfl⟩
      exact hne (hv.2.trans hu.2.symm)

/-! ### Moves -/

theorem setNexts_nexts : a.setNexts (nexts a) = a := rfl

theorem takeFull_core (h : Core name c a out [] [s] E) :
    takeFull c a = .ok (setHeads a c (some s) none (a.cache c).emptyHead) ∧
      Core name c (setHeads a c (some s) none (a.cache c).emptyHead) out [s] [] E := by
  obtain ⟨hs, hnone⟩ := h.fullC
  rw [chain_nil] at hnone
  refine ⟨?_, ?_⟩
  · have hp : (a.cache c).partialHead = none := h.partialC
    have hnext : (a.hdr s).next = none := hnone
    rw [takeFull, hp, hs]
    simp only [hnext]
    rfl
  · rw [← setNexts_nexts (a := a)]
    exact h.relink ⟨rfl, hnone⟩ rfl h.emptyC (by simp)

/-- A slab without free objects moves from the head of `partial` to `empty`. -/
theorem settle_core (h : Core name c a out (s :: P) F E) (hall : (a.hdr s).nused = (a.hdr s).nobjs) :
    ∃ a', settle c s a = a' ∧
      Core name c a' out P F (s :: E) ∧ ∀ t, (a'.hdr t).nused = (a.hdr t).nused ∧
        (a'.hdr t).nobjs = (a.hdr t).nobjs := by
  have hnd := h.nodup
  simp only [cons_append, nodup_cons, mem_append, not_or] at hnd
  obtain ⟨⟨⟨hsP, hsF⟩, hsE⟩, -⟩ := hnd
  refine ⟨_, rfl, ?_, fun t => ?_⟩ <;> rw [settle, if_pos hall, setHdr_next]
  · refine h.relink (h.partialC.2.update hsP) (h.fullC.update hsF) (h.emptyC.push hsE) ?_
    rw [cons_append, cons_append]
    exact perm_middle
  · exact ⟨rfl, rfl⟩

theorem unlinkSlab_eq {head : Option ℕ} {l : List ℕ} (hl : Chain (nexts a) head l)
    (hlen : l.length ≤ a.slabs.length) : ∃ head' n, unlinkSlab a s head = .ok (head', a.setNexts n) ∧
      Chain n head' (l.erase s) ∧ ∀ x, x ∉ l → n x = nexts a x := by
  obtain ⟨head', n, heq, hch, hout⟩ := hl.unlink_eq hlen
  refine ⟨head', n, ?_, hch, hout⟩
  unfold nexts at heq
  rw [unlinkSlab, heq]
  rfl

theorem emptyToPartial_core (h : Core name c a out P F E) (hs : s ∈ E) :
    ∃ a', emptyToPartial c s a = .ok a' ∧ Core name c a' out (s :: P) F (E.erase s) ∧
      ∀ t, (a'.hdr t).nused = (a.hdr t).nused ∧ (a'.hdr t).nobjs = (a.hdr t).nobjs := by
  have hlen := h.length_le
  simp only [length_append] at hlen
  have hnd := h.nodup
  rw [nodup_append] at hnd
  obtain ⟨-, hndE, hcross⟩ := hnd
  have hPE : ∀ x ∈ P, x ∉ E := fun x hx hxE => hcross x (mem_append_left _ hx) x hxE rfl
  have hFE : ∀ x ∈ F, x ∉ E := fun x hx hxE => hcross x (mem_append_right _ hx) x hxE rfl
  obtain ⟨head', n, heq, hch, hout⟩ := unlinkSlab_eq h.emptyC (by omega)
  have hP : Chain n (a.cache c).partialHead P := h.partialC.congr fun x hx => hout x (hPE x hx)
  have hF : Chain n (a.cache c).fullHead F := h.fullC.congr fun x hx => hout x (hFE x hx)
  refine ⟨_, by rw [emptyToPartial, heq]; rfl, ?_, fun t => ?_⟩ <;> dsimp only <;> rw [setHdr_next]
  · refine h.relink
      (hP.push fun hsP => hPE s hsP hs) (hF.update fun hsF => hFE s hsF hs)
      (hch.update fun hsE => hndE.not_mem_erase hsE) ?_
    rw [cons_append, cons_append]
    exact perm_middle.symm.trans ((perm_cons_erase hs).symm.append_left _)
  · exact ⟨rfl, rfl⟩

theorem partialToFull_core (h : Core name c a out P F E) (hs : s ∈ P) :
    ∃ a', partialToFull c s a = .ok a' ∧ Core name c a' out (P.erase s) (s :: F) E ∧
      ∀ t, (a'.hdr t).nused = (a.hdr t).nused ∧ (a'.hdr t).nobjs = (a.hdr t).nobjs := by
  have hlen := h.length_le
  simp only [length_append] at hlen
  have hnd := h.nodup
  rw [append_assoc, nodup_append] at hnd
  obtain ⟨hndP, -, hcross⟩ := hnd
  have hFP : ∀ x ∈ F, x ∉ P := fun x hx hxP => hcross x hxP x (mem_append_left _ hx) rfl
  have hEP : ∀ x ∈ E, x ∉ P := fun x hx hxP => hcross x hxP x (mem_append_right _ hx) rfl
  obtain ⟨head', n, heq, hch, hout⟩ := unlinkSlab_eq h.partialC (by omega)
  have hF : Chain n (a.cache c).fullHead F := h.fullC.congr fun x hx => hout x (hFP x hx)
  have hE : Chain n (a.cache c).emptyHead E := h.emptyC.congr fun x hx => hout x (hEP x hx)
  refine ⟨_, by rw [partialToFull, heq]; rfl, ?_, fun t => ?_⟩ <;> dsimp only <;> rw [setHdr_next]
  · refine h.relink
      (hch.update fun hsP => hndP.not_mem_erase hsP) (hF.push fun hsF => hFP s hsF hs)
      (hE.update fun hsE => hEP s hsE hs) ?_
    refine List.Perm.append_right E ?_
    exact perm_middle.trans ((perm_cons_erase hs).symm.append_right F)
  · exact ⟨rfl, rfl⟩

end Core

end Advos.Slab
