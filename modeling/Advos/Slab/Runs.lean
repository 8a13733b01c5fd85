import Advos.Schemes.Run
import Advos.Slab.Lists

/-! Every run on one cache.

    Between calls `full` holds the slabs with no object in use, `empty` those with no object left,
    `partial` the others (`Sorted`). An allocation with `partial` empty moves the first slab of `full`
    over without clearing its `next`: with a second slab in `full` the two lists share it from then
    on.

        full ──▶ s ──▶ t                 partial ──▶ s ──▶ t
                              becomes                      ▲
        partial = NULL                   full ─────────────┘

    As long as no allocation does that, and a slab of the cache holds at least one object of at least
    one byte, every call keeps the lists in order. -/

namespace Advos.Slab
open Linked Word Function Relation List

/-- The slabs are in the lists they belong to. -/
structure Sorted (a : Allocator) (P F E : List ℕ) : Prop where
  partly : ∀ s ∈ P, 0 < (a.hdr s).nused ∧ (a.hdr s).nused < (a.hdr s).nobjs
  full : ∀ s ∈ F, (a.hdr s).nused = 0
  empty : ∀ s ∈ E, (a.hdr s).nused = (a.hdr s).nobjs

structure Inv (name : List UInt8) (c : ℕ) (st : Sys) (P F E : List ℕ) : Prop where
  unlocked : st.alloc.lock = false
  core : Core name c st.alloc st.out P F E
  sorted : Sorted st.alloc P F E

section Calls
variable {name : List UInt8} {c : ℕ} {a a' : Allocator} {out P F E : List ℕ}

/-! ### Allocation -/

/-- The allocator with one more slab of cache `c`. -/
def addSlab (a : Allocator) (c p : ℕ) : Allocator :=
  { a with
    hdr := Function.update a.hdr p { freshHdr p (a.cache c).size with cache := some c }
    slabs := p :: a.slabs }

theorem hdr_addSlab_self (p : ℕ) :
    (addSlab a c p).hdr p = { freshHdr p (a.cache c).size with cache := some c } :=
  update_self ..

theorem hdr_addSlab_of_ne {s p : ℕ} (h : s ≠ p) : (addSlab a c p).hdr s = a.hdr s :=
  update_of_ne h _ _

theorem ensureSlab_grow (hp : (a.cache c).partialHead = none) (hf : (a.cache c).fullHead = none)
    (hsize : add64 (a.cache c).size 1 ≠ 0) (p : ℕ) : ensureSlab (some p) c a =
    .ok (true, setHeads (addSlab a c p) c none (some p) (a.cache c).emptyHead) := by
  simp only [ensureSlab, hp, hf, and_self, if_true, newSlab, hsize, if_false, bind, Except.bind, pure,
    Except.pure, setHeads, addSlab, Allocator.setHdr, Allocator.setCache, update_self,
    update_idem]

theorem ensureSlab_new (h : Core name c a out [] [] E) (p : ℕ) : ensureSlab (some p) c a =
    .ok (true, setHeads (addSlab a c p) c none (some p) (a.cache c).emptyHead) := by
  refine ensureSlab_grow h.partialC h.fullC ?_ p
  have := h.size_lt
  rw [add64_of_lt (by omega)]; omega

theorem addSlab_core (h : Core name c a out [] [] E) {p : ℕ} (hp : FreshPages a p) :
    Core name c (setHeads (addSlab a c p) c none (some p) (a.cache c).emptyHead) out [] [p] E := by
  have hnot : p ∉ a.slabs := fun hmem => not_apart_self p (hp.2 p hmem)
  have hE : ∀ s ∈ E, s ≠ p := by
    rintro s hs rfl
    exact hnot (h.mem_slabs (by simpa using hs)).1
  have hcache : (setHeads (addSlab a c p) c none (some p) (a.cache c).emptyHead).cache c =
      { a.cache c with partialHead := none, fullHead := some p } := cache_setHeads
  refine ⟨found_setHeads h.found, ?_, ?_, ?_, ?_, ?_, ?_, ?_, ?_, fun s hs => ?_,
    fun obj hobj => ?_, h.out_nodup⟩
  · rw [hcache]; exact h.size_pos
  · rw [hcache]; exact h.size_lt
  · rw [hcache]; rfl
  · rw [hcache]
    refine ⟨rfl, ?_⟩
    show ((addSlab a c p).hdr p).next = none
    rw [hdr_addSlab_self]; rfl
  · rw [hcache]
    exact h.emptyC.congr fun s hs => congrArg Hdr.next (hdr_addSlab_of_ne (hE s hs))
  · have hrest : a.slabs.filter (fun s => ((addSlab a c p).hdr s).cache = some c) = slabsOf a c := by
      refine filter_congr fun s hs => ?_
      have hsp : s ≠ p := by rintro rfl; exact hnot hs
      rw [hdr_addSlab_of_ne hsp]
    have : slabsOf (setHeads (addSlab a c p) c none (some p) (a.cache c).emptyHead) c =
        p :: slabsOf a c := by
      show (p :: a.slabs).filter (fun s => ((addSlab a c p).hdr s).cache = some c) = _
      rw [filter_cons, hdr_addSlab_self, hrest]
      simp
    rw [this]
    exact h.members.cons p
  · intro s hs
    rcases mem_cons.mp hs with rfl | hs
    · exact hp.1
    · exact h.pages s hs
  · exact pairwise_cons.mpr ⟨hp.2, h.apart⟩
  · rw [hcache]
    rcases mem_cons.mp hs with rfl | hs
    · show SlabOk _ _ ((addSlab a c s).hdr s)
      rw [hdr_addSlab_self]
      exact ⟨rfl, rfl, length_replicate, by simp [freshHdr, count_replicate]⟩
    · show SlabOk _ _ ((addSlab a c p).hdr s)
      rw [hdr_addSlab_of_ne (hE s hs)]
      exact h.slab s hs
  · obtain ⟨s, hs, i, hu⟩ := h.used obj hobj
    rw [hcache]
    refine ⟨s, mem_cons_of_mem _ hs, i, ?_⟩
    show ((addSlab a c p).hdr s).marks[i]? = _ ∧ obj = ((addSlab a c p).hdr s).objHead + _
    rw [hdr_addSlab_of_ne (hE s hs)]
    exact hu

theorem Sorted.congr (h : Sorted a P F E) (heq : ∀ s ∈ P ++ F ++ E,
    (a'.hdr s).nused = (a.hdr s).nused ∧ (a'.hdr s).nobjs = (a.hdr s).nobjs) : Sorted a' P F E := by
  simp only [mem_append] at heq
  refine ⟨fun s hs => ?_, fun s hs => ?_, fun s hs => ?_⟩
  · obtain ⟨h1, h2⟩ := heq s (Or.inl (Or.inl hs))
    rw [h1, h2]; exact h.partly s hs
  · rw [(heq s (Or.inl (Or.inr hs))).1]; exact h.full s hs
  · obtain ⟨h1, h2⟩ := heq s (Or.inr hs)
    rw [h1, h2]; exact h.empty s hs

variable {s : ℕ}

/-- The second half of an allocation: an object from the head of `partial`. -/
theorem serve_spec (h : Core name c a out (s :: P) F E) (hlo : 0 ≤ (a.hdr s).nused)
    (hhi : (a.hdr s).nused < (a.hdr s).nobjs) (hs : Sorted a P F E) :
    ∃ obj P' E', obj ∉ out ∧ (takeObject c s a).1 = some obj ∧
      Core name c (settle c s (takeObject c s a).2) (obj :: out) P' F E' ∧
      Sorted (settle c s (takeObject c s a).2) P' F E' := by
  obtain ⟨obj, m, hnot, htake, hcore⟩ := takeObject_core h mem_cons_self hhi
  have hnd := h.nodup
  simp only [cons_append, nodup_cons] at hnd
  -- the other slabs are untouched
  have hrest : Sorted (takeObject c s a).2 P F E := by
    refine hs.congr fun t ht => ?_
    have hts : t ≠ s := by rintro rfl; exact hnd.1 ht
    rw [htake, hdr_setHdr_of_ne hts]
    exact ⟨rfl, rfl⟩
  have hself : ((takeObject c s a).2.hdr s).nused = (a.hdr s).nused + 1 ∧
      ((takeObject c s a).2.hdr s).nobjs = (a.hdr s).nobjs := by
    rw [htake, hdr_setHdr_self]
    exact ⟨rfl, rfl⟩
  have hcore' : Core name c (takeObject c s a).2 (obj :: out) (s :: P) F E := by rw [htake]; exact hcore
  by_cases hall : ((takeObject c s a).2.hdr s).nused = ((takeObject c s a).2.hdr s).nobjs
  · obtain ⟨a', heq, hc, hsame⟩ := settle_core hcore' hall
    rw [heq]
    refine ⟨obj, P, s :: E, hnot, by rw [htake], hc, ?_⟩
    have hr := hrest.congr fun t _ => hsame t
    refine ⟨hr.partly, hr.full, fun t ht => ?_⟩
    rcases mem_cons.mp ht with rfl | ht
    · rw [(hsame t).1, (hsame t).2]; exact hall
    · exact hr.empty t ht
  · rw [settle, if_neg hall]
    refine ⟨obj, s :: P, E, hnot, by rw [htake], hcore', fun t ht => ?_, hrest.full, hrest.empty⟩
    rcases mem_cons.mp ht with rfl | ht
    · rw [hself.1, hself.2] at hall ⊢
      omega
    · exact hrest.partly t ht

/-- An allocation would find `partial` empty and two slabs in `full`. -/
def TwoFull (c : ℕ) (a : Allocator) : Prop :=
  (a.cache c).partialHead = none ∧ ∃ s, (a.cache c).fullHead = some s ∧ (a.hdr s).next ≠ none

/-- An object was handed out that was not out before, and the lists are in order. -/
def Served (name : List UInt8) (c : ℕ) (out : List ℕ) (r : Except Stop (Option ℕ × Allocator)) : Prop :=
  ∃ obj a' P F E, obj ∉ out ∧ r = .ok (some obj, a') ∧ Core name c a' (obj :: out) P F E ∧
    Sorted a' P F E

theorem allocObject_of_cons (h : Core name c a out (s :: P) F E) (hs : Sorted a (s :: P) F E) :
    Served name c out (allocObject c a) := by
  obtain ⟨hlo, hhi⟩ := hs.partly s mem_cons_self
  obtain ⟨obj, P', E', hnot, hobj, hcore, hsorted⟩ := serve_spec h (le_of_lt hlo) hhi
    ⟨fun t ht => hs.partly t (mem_cons_of_mem _ ht), hs.full, hs.empty⟩
  refine ⟨obj, _, P', F, E', hnot, ?_, hcore, hsorted⟩
  have htake : takeFull c a = .ok a := by rw [takeFull, h.partialC.1]; rfl
  simp only [allocObject, htake, bind, Except.bind, h.partialC.1, hobj]
  rfl

theorem allocObject_full (h : Core name c a out [] [s] E) (hs : Sorted a [] [s] E) :
    Served name c out (allocObject c a) := by
  obtain ⟨htake, hcore1⟩ := takeFull_core h
  have hzero := hs.full s (mem_singleton_self s)
  have hno := (h.slab s mem_cons_self).nobjs
  have hpos := objCount_pos h.size_lt
  obtain ⟨obj, P', E', hnot, hobj, hcore, hsorted⟩ := serve_spec hcore1 (le_of_eq hzero.symm)
    (by
      show (a.hdr s).nused < (a.hdr s).nobjs
      rw [hzero, hno]; exact_mod_cast hpos)
    ⟨by simp, by simp, hs.empty⟩
  refine ⟨obj, _, P', [], E', hnot, ?_, hcore, hsorted⟩
  simp only [allocObject, htake, bind, Except.bind, cache_setHeads, hobj]
  rfl

/-- An allocation answers NULL only without pages for the new slab it needs. -/
theorem slabAlloc_spec (h : Core name c a out P F E) (hs : Sorted a P F E) (hok : ¬ TwoFull c a)
    {pages : Option ℕ} (hp : ∀ p, pages = some p → FreshPages a p) :
    (pages = none ∧ P = [] ∧ F = [] ∧ slabAlloc pages name a = .ok (none, a)) ∨
      Served name c out (slabAlloc pages name a) := by
  have hfound := h.found
  have hgo : P ≠ [] ∨ F ≠ [] → slabAlloc pages name a = allocObject c a := by
    intro hne
    have hheads : ¬ ((a.cache c).partialHead = none ∧ (a.cache c).fullHead = none) := by
      rintro ⟨h1, h2⟩
      rcases hne with hne | hne
      · exact hne (Chain.eq_nil (by rw [← h1]; exact h.partialC))
      · exact hne (Chain.eq_nil (by rw [← h2]; exact h.fullC))
    simp only [slabAlloc, hfound, ensureSlab, hheads, if_false]
    rfl
  cases P with
  | cons s P =>
    rw [hgo (Or.inl (by simp))]
    exact Or.inr (allocObject_of_cons h hs)
  | nil =>
    cases F with
    | cons s F =>
      -- the slab is alone in `full`
      obtain rfl : F = [] := by
        have hnext : (a.hdr s).next = none := by
          by_contra hne
          exact hok ⟨h.partialC, s, h.fullC.1, hne⟩
        have hrest : Chain (nexts a) none F := by rw [← hnext]; exact h.fullC.2
        exact hrest.eq_nil
      rw [hgo (Or.inr (by simp))]
      exact Or.inr (allocObject_full h hs)
    | nil =>
      cases pages with
      | none =>
        have hp' : (a.cache c).partialHead = none := h.partialC
        have hf' : (a.cache c).fullHead = none := h.fullC
        refine Or.inl ⟨rfl, rfl, rfl, ?_⟩
        simp only [slabAlloc, hfound, ensureSlab, hp', hf', newSlab, and_self, if_true]
        rfl
      | some p =>
        have hcore := addSlab_core h (hp p rfl)
        have hfresh := hp p rfl
        refine Or.inr ?_
        have heq : slabAlloc (some p) name a = allocObject c
            (setHeads (addSlab a c p) c none (some p) (a.cache c).emptyHead) := by
          simp only [slabAlloc, hfound, ensureSlab_new h p]
          rfl
        rw [heq]
        refine allocObject_full hcore ⟨by simp, fun s hs' => ?_, fun s hs' => ?_⟩
        · obtain rfl := mem_singleton.mp hs'
          show ((addSlab a c s).hdr s).nused = 0
          rw [hdr_addSlab_self]
          rfl
        · have hsp : s ≠ p := by
            rintro rfl
            exact not_apart_self s (hfresh.2 s (h.mem_slabs (by simpa using hs')).1)
          show ((addSlab a c p).hdr s).nused = ((addSlab a c p).hdr s).nobjs
          rw [hdr_addSlab_of_ne hsp]
          exact hs.empty s hs'

/-! ### Release -/

theorem find?_eq_of_iff {l : List ℕ} {p : ℕ → Bool} (h : ∀ t ∈ l, p t = true ↔ t = s) :
    l.find? p = if s ∈ l then some s else none := by
  split
  · rename_i hs
    cases hf : l.find? p with
    | none => exact absurd ((h s hs).mpr rfl) (by simpa using List.find?_eq_none.mp hf s hs)
    | some t => rw [(h t (mem_of_find?_eq_some hf)).mp (List.find?_some hf)]
  · rename_i hs
    refine List.find?_eq_none.mpr fun t ht hpt => hs ?_
    rw [← (h t ht).mp hpt]; exact ht

/-- The search for the slab of an object in use, in a part of the lists. -/
theorem findSlabForObject_eq (h : Core name c a out P F E) {s i obj : ℕ} (hs : s ∈ P ++ F ++ E)
    (hu : InUse a (a.cache c).size obj s i) {head : Option ℕ} {l : List ℕ}
    (hl : Chain (nexts a) head l) (hsub : l.Sublist (P ++ F ++ E)) :
    findSlabForObject a (a.cache c).size head obj = .ok (if s ∈ l then some s else none) := by
  have hwalk : walk (nexts a) (holds a (a.cache c).size obj) a.slabs.length head = _ :=
    hl.walk_eq (le_trans hsub.length_le h.length_le)
  rw [find?_eq_of_iff fun t ht => h.holds_iff hs hu (hsub.subset ht)] at hwalk
  unfold nexts at hwalk
  rw [findSlabForObject, hwalk]
  rfl

/-- An object in use lies in a slab of `partial` or `empty`, and is found there. -/
theorem findOwner_spec (h : Core name c a out P F E) (hs : Sorted a P F E) {obj : ℕ}
    (hobj : obj ∈ out) : ∃ s i, InUse a (a.cache c).size obj s i ∧ 1 ≤ (a.hdr s).nused ∧
      (s ∈ P ∧ findOwner a c obj = .ok (some (true, s)) ∨
        s ∈ E ∧ findOwner a c obj = .ok (some (false, s))) := by
  obtain ⟨s, hmem, i, hu⟩ := h.used obj hobj
  have hused : 1 ≤ (a.hdr s).nused := by
    rw [(h.slab s hmem).nused]
    have : 0 < (a.hdr s).marks.count false :=
      count_pos_iff.mpr (mem_of_getElem? hu.1)
    exact_mod_cast this
  have hP := findSlabForObject_eq h hmem hu h.partialC
    ((sublist_append_left P F).trans (sublist_append_left _ E))
  have hE := findSlabForObject_eq h hmem hu h.emptyC (sublist_append_right _ E)
  refine ⟨s, i, hu, hused, ?_⟩
  by_cases hsP : s ∈ P
  · rw [if_pos hsP] at hP
    exact Or.inl ⟨hsP, by simp only [findOwner, hP, bind, Except.bind]; rfl⟩
  · have hsE : s ∈ E := by
      rcases mem_append.mp hmem with hPF | hsE
      · rcases mem_append.mp hPF with hsP' | hsF
        · exact absurd hsP' hsP
        · rw [hs.full s hsF] at hused
          exact absurd hused (by simp)
      · exact hsE
    rw [if_neg hsP] at hP
    rw [if_pos hsE] at hE
    exact Or.inr ⟨hsE, by simp only [findOwner, hP, hE, bind, Except.bind]; rfl⟩

/-- The end of a release, with the slab in `partial`: it goes on to `full` if it is unused. -/
theorem release_spec (h : Core name c a out P F E) (hsP : s ∈ P) (hlo : 0 ≤ (a.hdr s).nused)
    (hhi : (a.hdr s).nused < (a.hdr s).nobjs) (hs : Sorted a (P.erase s) F E) :
    ∃ a' P' F', enterFull c s a = .ok a' ∧ Core name c a' out P' F' E ∧ Sorted a' P' F' E := by
  unfold enterFull
  by_cases hzero : (a.hdr s).nused = 0
  · rw [if_pos hzero]
    obtain ⟨a', heq, hcore, hsame⟩ := partialToFull_core h hsP
    refine ⟨a', _, _, heq, hcore, ?_⟩
    have hr := hs.congr fun t _ => hsame t
    refine ⟨hr.partly, fun t ht => ?_, hr.empty⟩
    rcases mem_cons.mp ht with rfl | ht
    · rw [(hsame t).1]; exact hzero
    · exact hr.full t ht
  · rw [if_neg hzero]
    refine ⟨a, P, F, rfl, h, fun t ht => ?_, hs.full, hs.empty⟩
    by_cases hts : t = s
    · subst hts; omega
    · exact hs.partly t ((mem_erase_of_ne hts).mpr ht)

/-- The rest of a release, from the slab with the object put back. -/
theorem freeObject_spec {s obj : ℕ} {wasPartly : Bool} {a1 a2 : Allocator} {out' P' F' E' : List ℕ}
    (hput : putObject c s obj a = .ok a1)
    (hmove : leaveEmpty c s wasPartly a1 = .ok a2)
    (h : Core name c a2 out' P' F' E') (hsP : s ∈ P') (hlo : 0 ≤ (a2.hdr s).nused)
    (hhi : (a2.hdr s).nused < (a2.hdr s).nobjs) (hs : Sorted a2 (P'.erase s) F' E') :
    ∃ a' P'' F'', freeObject c s obj wasPartly a = .ok (0, a') ∧
      Core name c a' out' P'' F'' E' ∧ Sorted a' P'' F'' E' := by
  obtain ⟨a', P'', F'', heq, hcore, hsorted⟩ := release_spec h hsP hlo hhi hs
  refine ⟨a', P'', F'', ?_, hcore, hsorted⟩
  simp only [freeObject, hput, bind, Except.bind, hmove, heq]
  rfl

/-- A release of an object that is out returns 0, and the lists stay in order. -/
theorem slabFree_spec (h : Core name c a out P F E) (hs : Sorted a P F E) {obj : ℕ}
    (hobj : obj ∈ out) : ∃ a' P' F' E', slabFree name obj a = .ok (0, a') ∧
      Core name c a' (out.erase obj) P' F' E' ∧ Sorted a' P' F' E' := by
  obtain ⟨s, i, hu, hused, hcase⟩ := findOwner_spec h hs hobj
  have hmem : s ∈ P ++ F ++ E := by
    rcases hcase with ⟨hsP, -⟩ | ⟨hsE, -⟩
    · exact mem_append_left _ (mem_append_left _ hsP)
    · exact mem_append_right _ hsE
  have hle : (a.hdr s).nused ≤ (a.hdr s).nobjs := by
    obtain ⟨h1, -, h3, h4⟩ := h.slab s hmem
    rw [h4, h1, ← h3]
    exact_mod_cast count_le_length
  obtain ⟨m, hput, hcore1⟩ := putObject_core h hmem hu
  generalize ha1 : a.setHdr s { a.hdr s with marks := m, nused := (a.hdr s).nused - 1 } = a1 at *
  have hself : (a1.hdr s).nused = (a.hdr s).nused - 1 ∧ (a1.hdr s).nobjs = (a.hdr s).nobjs := by
    rw [← ha1, hdr_setHdr_self]; exact ⟨rfl, rfl⟩
  have hother : ∀ t, t ≠ s → a1.hdr t = a.hdr t := by
    intro t ht; rw [← ha1, hdr_setHdr_of_ne ht]
  obtain ⟨hndPF, hndE, hcross⟩ := nodup_append.mp h.nodup
  have hsF : ∀ t ∈ F, t ≠ s := by
    rintro t ht rfl
    rw [hs.full t ht] at hused
    exact absurd hused (by simp)
  rcases hcase with ⟨hsP, hown⟩ | ⟨hsE, hown⟩
  · -- the slab stays in `partial`
    have hsE : ∀ t ∈ E, t ≠ s := fun t ht hts => hcross s (mem_append_left _ hsP) t ht hts.symm
    have hsort : Sorted a1 (P.erase s) F E := by
      refine ⟨fun t ht => ?_, fun t ht => ?_, fun t ht => ?_⟩
      · obtain ⟨hne, htP⟩ := (nodup_append.mp hndPF).1.mem_erase_iff.mp ht
        rw [hother t hne]; exact hs.partly t htP
      · rw [hother t (hsF t ht)]; exact hs.full t ht
      · rw [hother t (hsE t ht)]; exact hs.empty t ht
    have hkeep : leaveEmpty c s true a1 = .ok a1 := rfl
    obtain ⟨a', P', F', heq, hres⟩ := freeObject_spec hput hkeep hcore1 hsP (by omega) (by omega) hsort
    refine ⟨a', P', F', E, ?_, hres⟩
    simp only [slabFree, h.found, hown, bind, Except.bind, heq]
  · -- the slab comes back from `empty`
    obtain ⟨a2, hmove, hcore2, hsame⟩ := emptyToPartial_core hcore1 hsE
    have hsP : ∀ t ∈ P, t ≠ s := fun t ht hts => hcross t (mem_append_left _ ht) s hsE hts
    have hsort : Sorted a2 ((s :: P).erase s) F (E.erase s) := by
      rw [erase_cons_head]
      refine ⟨fun t ht => ?_, fun t ht => ?_, fun t ht => ?_⟩
      · rw [(hsame t).1, (hsame t).2, hother t (hsP t ht)]; exact hs.partly t ht
      · rw [(hsame t).1, hother t (hsF t ht)]; exact hs.full t ht
      · obtain ⟨hne, htE⟩ := hndE.mem_erase_iff.mp ht
        rw [(hsame t).1, (hsame t).2, hother t hne]; exact hs.empty t htE
    have hs2 := hsame s
    have hleave : leaveEmpty c s false a1 = .ok a2 := hmove
    obtain ⟨a', P', F', heq, hres⟩ := freeObject_spec hput hleave hcore2 mem_cons_self
      (by omega) (by omega) hsort
    refine ⟨a', P', F', E.erase s, ?_, hres⟩
    simp only [slabFree, h.found, hown, bind, Except.bind, heq]

end Calls

/-! ### Runs -/

section Runs
variable {name : List UInt8} {c : ℕ} {st st' : Sys} {P F E : List ℕ}

theorem alloc_inv (h : Inv name c st P F E) (hok : ¬ TwoFull c st.alloc) {pages : Option ℕ}
    (hp : ∀ p, pages = some p → FreshPages st.alloc p) :
    ∃ obj a, memorySlabAlloc pages name st.alloc = .ok (obj, a) ∧ (∀ x, obj = some x → x ∉ st.out) ∧
      (obj = none → pages = none ∧ P = [] ∧ F = []) ∧
      ∃ P' F' E', Inv name c ⟨a, obj.toList ++ st.out⟩ P' F' E' := by
  have hlock : spinLock st.alloc = .ok { st.alloc with lock := true } := by
    rw [spinLock, h.unlocked]; rfl
  have hsorted : Sorted { st.alloc with lock := true } P F E := h.sorted.congr fun _ _ => ⟨rfl, rfl⟩
  have hcall : ∀ {r}, slabAlloc pages name { st.alloc with lock := true } = .ok r →
      memorySlabAlloc pages name st.alloc = .ok (r.1, spinUnlock r.2) := by
    intro r hr
    simp only [memorySlabAlloc, hlock, hr, bind, Except.bind]
    rfl
  rcases slabAlloc_spec (h.core.setLock true) hsorted hok hp with
    ⟨hpages, hP, hF, heq⟩ | ⟨obj, a', P', F', E', hnot, heq, hcore, hs⟩
  · refine ⟨none, _, hcall heq, by simp, fun _ => ⟨hpages, hP, hF⟩, P, F, E, rfl, ?_, ?_⟩
    · exact h.core.setLock false
    · exact h.sorted.congr fun _ _ => ⟨rfl, rfl⟩
  · refine ⟨some obj, _, hcall heq, fun x hx => ?_, by simp, P', F', E', rfl, hcore.setLock false, ?_⟩
    · rw [← Option.some.inj hx]; exact hnot
    · exact hs.congr fun _ _ => ⟨rfl, rfl⟩

theorem free_inv (h : Inv name c st P F E) {obj : ℕ} (hobj : obj ∈ st.out) :
    ∃ a, memorySlabFree name obj st.alloc = .ok (0, a) ∧
      ∃ P' F' E', Inv name c ⟨a, st.out.erase obj⟩ P' F' E' := by
  have hlock : spinLock st.alloc = .ok { st.alloc with lock := true } := by
    rw [spinLock, h.unlocked]; rfl
  have hsorted : Sorted { st.alloc with lock := true } P F E := h.sorted.congr fun _ _ => ⟨rfl, rfl⟩
  obtain ⟨a', P', F', E', heq, hcore, hs⟩ := slabFree_spec (h.core.setLock true) hsorted hobj
  refine ⟨spinUnlock a', ?_, P', F', E', rfl, hcore.setLock false, hs.congr fun _ _ => ⟨rfl, rfl⟩⟩
  simp only [memorySlabFree, hlock, heq, bind, Except.bind]
  rfl

theorem step_inv (h : ∃ P F E, Inv name c st P F E)
    (hst : Step (fun a => ¬ TwoFull c a) name st st') : ∃ P F E, Inv name c st' P F E := by
  obtain ⟨P, F, E, h⟩ := h
  cases hst with
  | alloc pages hp hok obj a heq =>
    obtain ⟨obj', a', heq', -, -, hinv⟩ := alloc_inv h hok hp
    rw [heq] at heq'
    obtain ⟨rfl, rfl⟩ := Prod.mk.injEq .. ▸ Except.ok.inj heq'
    exact hinv
  | free obj hmem ret a heq =>
    obtain ⟨a', heq', hinv⟩ := free_inv h hmem
    rw [heq] at heq'
    obtain ⟨-, rfl⟩ := Prod.mk.injEq .. ▸ Except.ok.inj heq'
    exact hinv

theorem newCache_inv {a : Allocator} {s : ℕ} (h : NewCache a name c s) (hpos : 1 ≤ (a.cache c).size)
    (hlt : (a.cache c).size < 32672) : ∃ P F E, Inv name c ⟨a, []⟩ P F E := by
  have hcount := objCount_pos hlt
  obtain ⟨hE, ⟨hP, hF, hh⟩ | ⟨hP, hF, hone, hh⟩⟩ := h.lists
  · refine ⟨[], [s], [], h.unlocked, ⟨h.found, hpos, hlt, hP, ⟨hF, ?_⟩, hE, ?_, h.pages, h.apart,
      fun t ht => ?_, by simp, nodup_nil⟩, by simp, fun t ht => ?_, by simp⟩
    · show (a.hdr s).next = none
      rw [hh]; rfl
    · rw [h.slab]; exact List.Perm.refl _
    · obtain rfl : t = s := by simpa using ht
      rw [hh]
      exact ⟨rfl, rfl, length_replicate, by simp [freshHdr, count_replicate]⟩
    · obtain rfl := mem_singleton.mp ht
      show (a.hdr t).nused = 0
      rw [hh]; rfl
  · refine ⟨[s], [], [], h.unlocked, ⟨h.found, hpos, hlt, ⟨hP, ?_⟩, hF, hE, ?_, h.pages, h.apart,
      fun t ht => ?_, by simp, nodup_nil⟩, fun t ht => ?_, by simp, by simp⟩
    · show (a.hdr s).next = none
      rw [hh]; rfl
    · rw [h.slab]; exact List.Perm.refl _
    · obtain rfl : t = s := by simpa using ht
      rw [hh]
      refine ⟨rfl, rfl, by simp, ?_⟩
      have hmark : (List.replicate (objCount (a.cache c).size) true)[0]? = some true := by
        simp [hcount]
      rw [count_set_false hmark]
      simp [count_replicate]
    · obtain rfl := mem_singleton.mp ht
      show 0 < (a.hdr t).nused ∧ (a.hdr t).nused < (a.hdr t).nobjs
      rw [hh]
      exact ⟨Int.one_pos, by simpa [freshHdr] using hone⟩

end Runs

/-- The lists of cache `c` are finite, every slab of the cache is in exactly one of them, the one its
    number of objects in use says, and that number is the number of cleared marks. -/
structure Intact (c : ℕ) (a : Allocator) (P F E : List ℕ) : Prop where
  partialC : Chain (nexts a) (a.cache c).partialHead P
  fullC : Chain (nexts a) (a.cache c).fullHead F
  emptyC : Chain (nexts a) (a.cache c).emptyHead E
  once : (P ++ F ++ E).Nodup
  members : ∀ s, s ∈ P ++ F ++ E ↔ s ∈ slabsOf a c
  full : ∀ s ∈ slabsOf a c, s ∈ F ↔ (a.hdr s).nused = 0
  empty : ∀ s ∈ slabsOf a c, s ∈ E ↔ (a.hdr s).nused = (a.hdr s).nobjs
  marks : ∀ s ∈ slabsOf a c, (a.hdr s).nused = (a.hdr s).marks.count false

/-- An allocation returns, never an object that is out, and NULL only when it needs a new slab and
    there are no pages for one. -/
def AllocatesFresh (name : List UInt8) (c : ℕ) (st : Sys) : Prop :=
  ∀ pages : Option ℕ, (∀ p, pages = some p → FreshPages st.alloc p) →
    ∃ obj a, memorySlabAlloc pages name st.alloc = .ok (obj, a) ∧ (∀ x, obj = some x → x ∉ st.out) ∧
      (obj = none → pages = none ∧ (st.alloc.cache c).partialHead = none ∧
        (st.alloc.cache c).fullHead = none)

/-- A release of an object that is out returns 0. -/
def ReleasesAll (name : List UInt8) (st : Sys) : Prop :=
  ∀ obj ∈ st.out, ∃ a, memorySlabFree name obj st.alloc = .ok (0, a)

theorem Inv.intact {name : List UInt8} {c : ℕ} {st : Sys} {P F E : List ℕ}
    (h : Inv name c st P F E) : Intact c st.alloc P F E := by
  have hcount := objCount_pos h.core.size_lt
  have hmem : ∀ s, s ∈ P ++ F ++ E ↔ s ∈ slabsOf st.alloc c := fun s => h.core.members.mem_iff
  have hnobjs : ∀ s ∈ slabsOf st.alloc c, 0 < (st.alloc.hdr s).nobjs := fun s hs => by
    rw [(h.core.slab s ((hmem s).mpr hs)).nobjs]; exact hcount
  refine ⟨h.core.partialC, h.core.fullC, h.core.emptyC, h.core.nodup, hmem,
    fun s hs => ⟨h.sorted.full s, fun hz => ?_⟩, fun s hs => ⟨h.sorted.empty s, fun hz => ?_⟩,
    fun s hs => (h.core.slab s ((hmem s).mpr hs)).nused⟩
  · have := hnobjs s hs
    rcases mem_append.mp ((hmem s).mpr hs) with hPF | hE
    · rcases mem_append.mp hPF with hP | hF
      · exact absurd hz (ne_of_gt (h.sorted.partly s hP).1)
      · exact hF
    · have := h.sorted.empty s hE
      omega
  · have := hnobjs s hs
    rcases mem_append.mp ((hmem s).mpr hs) with hPF | hE
    · rcases mem_append.mp hPF with hP | hF
      · exact absurd hz (ne_of_lt (h.sorted.partly s hP).2)
      · have := h.sorted.full s hF
        omega
    · exact hE

/-- In every run on a new cache whose slabs hold at least one object of at least one byte, and in which
    no allocation finds `partial` empty and two slabs in `full`. -/
theorem slab_runs_intact {name : List UInt8} {c s : ℕ} {a : Allocator} (h : NewCache a name c s)
    (hpos : 1 ≤ (a.cache c).size) (hlt : (a.cache c).size < 32672) {st : Sys}
    (hr : Relation.ReflTransGen (Step (fun a => ¬ TwoFull c a) name) ⟨a, []⟩ st) :
    (∃ P F E, Intact c st.alloc P F E) ∧ (¬ TwoFull c st.alloc → AllocatesFresh name c st) ∧
      ReleasesAll name st := by
  obtain ⟨P, F, E, hinv⟩ := Run.invariant (P := fun st => ∃ P F E, Inv name c st P F E) hr
    (newCache_inv h hpos hlt) fun _ _ hi hst => step_inv hi hst
  refine ⟨⟨P, F, E, hinv.intact⟩, fun hok pages hp => ?_, fun obj hobj => ?_⟩
  · obtain ⟨obj, a', heq, hnot, hnull, -⟩ := alloc_inv hinv hok hp
    refine ⟨obj, a', heq, hnot, fun hn => ?_⟩
    obtain ⟨hpages, rfl, rfl⟩ := hnull hn
    exact ⟨hpages, hinv.core.partialC, hinv.core.fullC⟩
  · obtain ⟨a', heq, -⟩ := free_inv hinv hobj
    exact ⟨a', heq⟩

/-! A cache of objects of 20000 bytes, one to a slab. -/

/-- The cache as it was created, with its slab at `0x8000`. -/
def bigCache : Allocator where
  lock := false
  root := .node .nil 0 .nil
  cache := fun _ => ⟨[98], 20000, none, some 0x8000, none⟩
  hdr := fun s => { freshHdr s 20000 with cache := some 0 }
  slabs := [0x8000]

theorem bigCache_new : NewCache bigCache [98] 0 0x8000 := by
  refine ⟨by decide, rfl, by decide, by decide, by simp [bigCache], rfl, Or.inl ⟨rfl, rfl, rfl⟩⟩

/-- The state after an allocation that returns. -/
def afterAlloc (pages : Option ℕ) (st : Sys) : Sys :=
  match memorySlabAlloc pages [98] st.alloc with
  | .ok (obj, a) => ⟨a, obj.toList ++ st.out⟩
  | .error _ => st

/-- The state after a release that returns. -/
def afterFree (obj : ℕ) (st : Sys) : Sys :=
  match memorySlabFree [98] obj st.alloc with
  | .ok (_, a) => ⟨a, st.out.erase obj⟩
  | .error _ => st

theorem afterAlloc_step {ok : Allocator → Prop} {pages : Option ℕ} {st : Sys}
    (hp : ∀ p, pages = some p → FreshPages st.alloc p) (hok : ok st.alloc)
    (h : (memorySlabAlloc pages [98] st.alloc).isOk = true) :
    Step ok [98] st (afterAlloc pages st) := by
  unfold afterAlloc
  cases heq : memorySlabAlloc pages [98] st.alloc with
  | error e => rw [heq] at h; exact absurd h (by simp [Except.isOk, Except.toBool])
  | ok r => exact Step.alloc st pages hp hok r.1 r.2 heq

theorem afterFree_step {ok : Allocator → Prop} {obj : ℕ} {st : Sys} (hmem : obj ∈ st.out)
    (h : (memorySlabFree [98] obj st.alloc).isOk = true) : Step ok [98] st (afterFree obj st) := by
  unfold afterFree
  cases heq : memorySlabFree [98] obj st.alloc with
  | error e => rw [heq] at h; exact absurd h (by simp [Except.isOk, Except.toBool])
  | ok r => exact Step.free st obj hmem r.1 r.2 heq

/-- One object out. -/
def oneOut : Sys := afterAlloc none ⟨bigCache, []⟩

/-- Two objects out, from two slabs. -/
def twoOut : Sys := afterAlloc (some 0x10000) oneOut

/-- Both slabs are in `full` again, the second in front. -/
def bothFull : Sys := afterFree 0x10040 (afterFree 0x8040 twoOut)

theorem oneOut_step : Step (fun a => ¬ TwoFull 0 a) [98] ⟨bigCache, []⟩ oneOut := by
  refine afterAlloc_step (by simp) ?_ (by decide)
  rintro ⟨-, s, hs, hnext⟩
  exact hnext rfl

theorem slab_runs_intact_one_object :
    (∃ P F E, Intact 0 oneOut.alloc P F E) ∧ ReleasesAll [98] oneOut := by
  have h := slab_runs_intact bigCache_new (by decide) (by decide)
    (Relation.ReflTransGen.single oneOut_step)
  exact ⟨h.1, h.2.2⟩

theorem bothFull_reach :
    ReflTransGen (Step (fun _ => True) [98]) ⟨bigCache, []⟩ bothFull := by
  have h1 : Step (fun _ => True) [98] ⟨bigCache, []⟩ oneOut :=
    afterAlloc_step (by simp) trivial (by decide)
  have h2 : Step (fun _ => True) [98] oneOut twoOut := by
    refine afterAlloc_step (fun p hp => ?_) trivial (by decide)
    cases hp
    refine ⟨by decide, fun s hs => ?_⟩
    have hslabs : oneOut.alloc.slabs = [0x8000] := by decide
    rw [hslabs, mem_singleton] at hs
    subst hs
    exact Or.inr (by decide)
  have h3 : Step (fun _ => True) [98] twoOut (afterFree 0x8040 twoOut) :=
    afterFree_step (by decide) (by decide)
  have h4 : Step (fun _ => True) [98] (afterFree 0x8040 twoOut) bothFull :=
    afterFree_step (by decide) (by decide)
  exact (((ReflTransGen.single h1).tail h2).tail h3).tail h4

/-- The next allocation leaves the first slab in `partial` and in `full`. -/
theorem slab_in_two_lists :
    Relation.ReflTransGen (Step (fun _ => True) [98]) ⟨bigCache, []⟩ (afterAlloc none bothFull) ∧
      ¬ ∃ P F E, Intact 0 (afterAlloc none bothFull).alloc P F E := by
  refine ⟨bothFull_reach.tail (afterAlloc_step (by simp) trivial (by decide)), ?_⟩
  rintro ⟨P, F, E, h⟩
  have hp : ((afterAlloc none bothFull).alloc.cache 0).partialHead = some 0x8000 := by decide
  have hf : ((afterAlloc none bothFull).alloc.cache 0).fullHead = some 0x8000 := by decide
  have hP := h.partialC
  have hF := h.fullC
  rw [hp] at hP
  rw [hf] at hF
  have hPF := (List.nodup_append.mp (List.nodup_append.mp h.once).1).2.2
  exact hPF _ hP.head_mem _ hF.head_mem rfl

end Advos.Slab
