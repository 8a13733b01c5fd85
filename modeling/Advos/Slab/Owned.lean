import Advos.Slab.Runs

/-! What a call on one cache leaves alone.

    A slab belongs to the cache its header names, for good. The lists of a cache run through its own
    slabs only (`Owned`), whatever order they are in: this holds also after the calls that leave a
    slab in two lists. So a call on a cache changes its own heads and the headers of its own slabs
    and nothing else (`Moved`).

        cache c ─▶ partial, full, empty ─▶ slabs with header.cache = c ─▶ (next) ─▶ …
        cache d ─▶ partial, full, empty ─▶ slabs with header.cache = d ─▶ (next) ─▶ …          -/

namespace Advos.Slab
open Linked Word Function List

/-- The caches of the tree. -/
def CacheTree.caches : CacheTree → List ℕ
  | .nil => []
  | .node left c right => left.caches ++ c :: right.caches

/-- A link that leads to a slab of cache `c`, or nowhere. -/
def Own (a : Allocator) (c : ℕ) (link : Option ℕ) : Prop :=
  ∀ s, link = some s → s ∈ a.slabs ∧ (a.hdr s).cache = some c

theorem own_none {a : Allocator} {c : ℕ} : Own a c none := nofun

/-- The part of a header that `_new_slab` wrote and nobody changes. -/
structure Laid (size s : ℕ) (h : Hdr) : Prop where
  nobjs : h.nobjs = objCount size
  objHead : h.objHead = objStart s (objCount size)
  marks : h.marks.length = objCount size

structure Owned (a : Allocator) : Prop where
  heads : ∀ c ∈ a.root.caches, Own a c (a.cache c).partialHead ∧ Own a c (a.cache c).fullHead ∧
    Own a c (a.cache c).emptyHead
  next : ∀ s ∈ a.slabs, ∀ c, (a.hdr s).cache = some c → Own a c (a.hdr s).next
  slab : ∀ s ∈ a.slabs, ∃ c ∈ a.root.caches, (a.hdr s).cache = some c ∧
    Laid (a.cache c).size s (a.hdr s)
  pages : ∀ s ∈ a.slabs, s + slabBytes ≤ 2 ^ 64
  apart : a.slabs.Pairwise Apart

/-- From `a` to `a'` only cache `c` and its slabs changed. -/
structure Moved (c : ℕ) (a a' : Allocator) : Prop where
  root : a'.root = a.root
  others : ∀ x, x ≠ c → a'.cache x = a.cache x
  name : (a'.cache c).name = (a.cache c).name
  size : (a'.cache c).size = (a.cache c).size
  hdrs : ∀ s ∈ a.slabs, (a.hdr s).cache ≠ some c → a'.hdr s = a.hdr s
  owner : ∀ s ∈ a.slabs, (a'.hdr s).cache = (a.hdr s).cache
  slabs : ∃ new, a'.slabs = new ++ a.slabs ∧ ∀ p ∈ new, (a'.hdr p).cache = some c
  owned : Owned a'

section Moves
variable {name : List UInt8} {a a' a'' : Allocator} {c s : ℕ}

theorem findSlabCache_mem {cache : ℕ → Cache} : ∀ {t : CacheTree},
    findSlabCache cache t name = some c → c ∈ t.caches ∧ kstrncmp nameMax (cache c).name name = 0
  | .node left x right, h => by
      rw [findSlabCache] at h
      simp only [CacheTree.caches, mem_append, mem_cons]
      split at h
      · rename_i hx
        cases h
        exact ⟨.inr (.inl rfl), hx⟩
      · split at h
        · obtain ⟨hm, hz⟩ := findSlabCache_mem h
          exact ⟨.inl hm, hz⟩
        · obtain ⟨hm, hz⟩ := findSlabCache_mem h
          exact ⟨.inr (.inr hm), hz⟩

namespace Moved

theorem refl (h : Owned a) : Moved c a a :=
  ⟨rfl, fun _ _ => rfl, rfl, rfl, fun _ _ _ => rfl, fun _ _ => rfl, ⟨[], rfl, by simp⟩, h⟩

theorem mem_slabs (h : Moved c a a') (hs : s ∈ a.slabs) : s ∈ a'.slabs := by
  obtain ⟨new, heq, -⟩ := h.slabs
  rw [heq]
  exact mem_append_right _ hs

/-- KEPT: a link into the slabs of any cache. -/
theorem own {x : ℕ} {link : Option ℕ} (h : Moved c a a') (hl : Own a x link) : Own a' x link := by
  intro t ht
  obtain ⟨hmem, hx⟩ := hl t ht
  exact ⟨h.mem_slabs hmem, (h.owner t hmem).trans hx⟩

theorem caches (h : Moved c a a') (hc : c ∈ a.root.caches) : c ∈ a'.root.caches := by
  rw [h.root]
  exact hc

theorem trans (h : Moved c a a') (h' : Moved c a' a'') : Moved c a a'' := by
  refine ⟨h'.root.trans h.root, fun x hx => (h'.others x hx).trans (h.others x hx),
    h'.name.trans h.name, h'.size.trans h.size, fun s hs hne => ?_,
    fun s hs => (h'.owner s (h.mem_slabs hs)).trans (h.owner s hs), ?_, h'.owned⟩
  · rw [h'.hdrs s (h.mem_slabs hs) (by rw [h.owner s hs]; exact hne), h.hdrs s hs hne]
  · obtain ⟨new, heq, hnew⟩ := h.slabs
    obtain ⟨new', heq', hnew'⟩ := h'.slabs
    refine ⟨new' ++ new, by rw [heq', heq, append_assoc], fun p hp => ?_⟩
    rcases mem_append.mp hp with hp | hp
    · exact hnew' p hp
    · rw [h'.owner p (by rw [heq]; exact mem_append_left _ hp)]
      exact hnew p hp

theorem names (h : Moved c a a') (x : ℕ) : (a'.cache x).name = (a.cache x).name := by
  by_cases hx : x = c
  · rw [hx]; exact h.name
  · rw [h.others x hx]

theorem sizes (h : Moved c a a') (x : ℕ) : (a'.cache x).size = (a.cache x).size := by
  by_cases hx : x = c
  · rw [hx]; exact h.size
  · rw [h.others x hx]

theorem find (h : Moved c a a') (name : List UInt8) :
    findSlabCache a'.cache a'.root name = findSlabCache a.cache a.root name := by
  rw [h.root]
  exact findSlabCache_congr h.names a.root name

end Moved

/-! ### Writes -/

namespace Owned

theorem setLock (h : Owned a) (b : Bool) : Owned { a with lock := b } :=
  ⟨h.heads, h.next, h.slab, h.pages, h.apart⟩

theorem setHeads (h : Owned a) {p f e : Option ℕ} (hp : Own a c p) (hf : Own a c f)
    (he : Own a c e) : Moved c a (setHeads a c p f e) := by
  have hself : (Slab.setHeads a c p f e).cache c = _ := cache_setHeads
  have hother : ∀ x, x ≠ c → (Slab.setHeads a c p f e).cache x = a.cache x :=
    fun x hx => update_of_ne hx _ _
  refine ⟨rfl, hother, by rw [hself], by rw [hself], fun _ _ _ => rfl, fun _ _ => rfl,
    ⟨[], rfl, by simp⟩, ⟨fun x hx => ?_, h.next, fun s hs => ?_, h.pages, h.apart⟩⟩
  · by_cases hxc : x = c
    · subst hxc; rw [hself]; exact ⟨hp, hf, he⟩
    · rw [hother x hxc]; exact h.heads x hx
  · obtain ⟨x, hx, hown, hlaid⟩ := h.slab s hs
    refine ⟨x, hx, hown, ?_⟩
    by_cases hxc : x = c
    · subst hxc; rw [hself]; exact hlaid
    · rw [hother x hxc]; exact hlaid

theorem setNexts (h : Owned a) {n : ℕ → Option ℕ}
    (hin : ∀ s ∈ a.slabs, (a.hdr s).cache = some c → Own a c (n s))
    (hout : ∀ s ∈ a.slabs, (a.hdr s).cache ≠ some c → n s = (a.hdr s).next) :
    Moved c a (a.setNexts n) := by
  refine ⟨rfl, fun _ _ => rfl, rfl, rfl, fun s hs hne => ?_, fun _ _ => rfl, ⟨[], rfl, by simp⟩,
    ⟨h.heads, fun s hs x hx => ?_, fun s hs => ?_, h.pages, h.apart⟩⟩
  · show { a.hdr s with next := n s } = a.hdr s
    rw [hout s hs hne]
  · by_cases hxc : x = c
    · subst hxc; exact hin s hs hx
    · have hne : (a.hdr s).cache ≠ some c := by
        intro heq
        have hx' : (a.hdr s).cache = some x := hx
        rw [heq] at hx'
        exact hxc (Option.some.inj hx').symm
      show Own a x (n s)
      rw [hout s hs hne]
      exact h.next s hs x hx
  · obtain ⟨x, hx, hown, hlaid⟩ := h.slab s hs
    exact ⟨x, hx, hown, hlaid.nobjs, hlaid.objHead, hlaid.marks⟩

theorem setNext (h : Owned a) (hc : (a.hdr s).cache = some c) {v : Option ℕ} (hv : Own a c v) :
    Moved c a (a.setHdr s { a.hdr s with next := v }) := by
  rw [setHdr_next]
  refine h.setNexts (fun t ht hown => ?_) fun t ht hne => ?_
  · by_cases hts : t = s
    · subst hts; rw [update_self]; exact hv
    · rw [update_of_ne hts]; exact h.next t ht c hown
  · have hts : t ≠ s := by rintro rfl; exact hne hc
    rw [update_of_ne hts]
    rfl

theorem setMarks (h : Owned a) (hc : (a.hdr s).cache = some c) {m : List Bool} {k : ℤ}
    (hlen : m.length = (a.hdr s).marks.length) :
    Moved c a (a.setHdr s { a.hdr s with marks := m, nused := k }) := by
  have hfield : ∀ t, ((a.setHdr s { a.hdr s with marks := m, nused := k }).hdr t).cache =
      (a.hdr t).cache ∧ ((a.setHdr s { a.hdr s with marks := m, nused := k }).hdr t).next =
      (a.hdr t).next := by
    intro t
    by_cases hts : t = s
    · subst hts; rw [hdr_setHdr_self]; exact ⟨rfl, rfl⟩
    · rw [hdr_setHdr_of_ne hts]; exact ⟨rfl, rfl⟩
  have hown : ∀ {x : ℕ} {link : Option ℕ}, Own a x link →
      Own (a.setHdr s { a.hdr s with marks := m, nused := k }) x link := by
    intro x link hl t ht
    rw [(hfield t).1]
    exact hl t ht
  refine ⟨rfl, fun _ _ => rfl, rfl, rfl, fun t ht hne => ?_, fun t _ => (hfield t).1,
    ⟨[], rfl, by simp⟩, ⟨fun x hx => ?_, fun t ht x hx => ?_, fun t ht => ?_, h.pages, h.apart⟩⟩
  · have hts : t ≠ s := by rintro rfl; exact hne hc
    exact hdr_setHdr_of_ne hts _
  · obtain ⟨h1, h2, h3⟩ := h.heads x hx
    exact ⟨hown h1, hown h2, hown h3⟩
  · rw [(hfield t).1] at hx
    rw [(hfield t).2]
    exact hown (h.next t ht x hx)
  · obtain ⟨x, hx, hcx, hlaid⟩ := h.slab t ht
    refine ⟨x, hx, (hfield t).1.trans hcx, ?_⟩
    by_cases hts : t = s
    · subst hts
      rw [hdr_setHdr_self]
      exact ⟨hlaid.nobjs, hlaid.objHead, hlen.trans hlaid.marks⟩
    · rw [hdr_setHdr_of_ne hts]; exact hlaid

/-- A new slab at `p`, with the header `_new_slab` writes and an owner. -/
theorem addSlab (h : Owned a) (hc : c ∈ a.root.caches) {p : ℕ} (hp : FreshPages a p) :
    Moved c a (addSlab a c p) ∧ Own (Slab.addSlab a c p) c (some p) := by
  have hne : ∀ s ∈ a.slabs, s ≠ p := by
    rintro s hs rfl
    exact not_apart_self s (hp.2 s hs)
  have hself : (Slab.addSlab a c p).hdr p = _ := hdr_addSlab_self p
  have hother : ∀ s ∈ a.slabs, (Slab.addSlab a c p).hdr s = a.hdr s :=
    fun s hs => hdr_addSlab_of_ne (hne s hs)
  have hown : ∀ {x : ℕ} {link : Option ℕ}, Own a x link → Own (Slab.addSlab a c p) x link := by
    intro x link hl t ht
    obtain ⟨hmem, hcx⟩ := hl t ht
    exact ⟨mem_cons_of_mem _ hmem, by rw [hother t hmem]; exact hcx⟩
  refine ⟨⟨rfl, fun _ _ => rfl, rfl, rfl, fun s hs _ => hother s hs, fun s hs => by rw [hother s hs],
    ⟨[p], rfl, fun q hq => ?_⟩, ⟨fun x hx => ?_, fun s hs x hx => ?_, fun s hs => ?_, fun s hs => ?_,
      pairwise_cons.mpr ⟨hp.2, h.apart⟩⟩⟩, fun q hq => ?_⟩
  · obtain rfl := mem_singleton.mp hq
    rw [hself]
  · obtain ⟨h1, h2, h3⟩ := h.heads x hx
    exact ⟨hown h1, hown h2, hown h3⟩
  · rcases mem_cons.mp hs with rfl | hs
    · rw [hself]; exact own_none
    · rw [hother s hs] at hx ⊢
      exact hown (h.next s hs x hx)
  · rcases mem_cons.mp hs with rfl | hs
    · refine ⟨c, hc, by rw [hself], ?_⟩
      rw [hself]
      exact ⟨rfl, rfl, length_replicate⟩
    · rw [hother s hs]
      exact h.slab s hs
  · rcases mem_cons.mp hs with rfl | hs
    · exact hp.1
    · exact h.pages s hs
  · cases hq
    exact ⟨mem_cons_self, by rw [hself]⟩

end Owned

/-! ### Allocation -/

/-- A new slab is made when there is none to take from, if there are pages for one. -/
theorem ensureSlab_cases {pages : Option ℕ} {b : Bool} (heq : ensureSlab pages c a = .ok (b, a')) :
    (a' = a ∧ (b = true ∧ ¬ ((a.cache c).partialHead = none ∧ (a.cache c).fullHead = none) ∨
      b = false ∧ pages = none ∧ (a.cache c).partialHead = none ∧ (a.cache c).fullHead = none)) ∨
    ∃ p, pages = some p ∧ b = true ∧
      a' = setHeads (addSlab a c p) c none (some p) (a.cache c).emptyHead := by
  by_cases hnone : (a.cache c).partialHead = none ∧ (a.cache c).fullHead = none
  · cases pages with
    | none =>
      simp only [ensureSlab, hnone, and_self, if_true, newSlab, bind, Except.bind, pure, Except.pure,
        Except.ok.injEq, Prod.mk.injEq] at heq
      obtain ⟨rfl, rfl⟩ := heq
      exact .inl ⟨rfl, .inr ⟨rfl, rfl, hnone⟩⟩
    | some p =>
      by_cases hsize : add64 (a.cache c).size 1 = 0
      · simp [ensureSlab, hnone, newSlab, hsize, bind, Except.bind] at heq
      · rw [ensureSlab_grow hnone.1 hnone.2 hsize] at heq
        simp only [Except.ok.injEq, Prod.mk.injEq] at heq
        obtain ⟨rfl, rfl⟩ := heq
        exact .inr ⟨p, rfl, rfl, rfl⟩
  · rw [ensureSlab, if_neg hnone] at heq
    simp only [pure, Except.pure, Except.ok.injEq, Prod.mk.injEq] at heq
    obtain ⟨rfl, rfl⟩ := heq
    exact .inl ⟨rfl, .inl ⟨rfl, hnone⟩⟩

theorem ensureSlab_moved (h : Owned a) (hc : c ∈ a.root.caches) {pages : Option ℕ}
    (hp : ∀ p, pages = some p → FreshPages a p) {b : Bool} (heq : ensureSlab pages c a = .ok (b, a')) :
    Moved c a a' := by
  rcases ensureSlab_cases heq with ⟨rfl, -⟩ | ⟨p, rfl, -, rfl⟩
  · exact Moved.refl h
  · obtain ⟨hadd, hown⟩ := h.addSlab hc (hp p rfl)
    exact hadd.trans (hadd.owned.setHeads own_none hown (hadd.owned.heads c hc).2.2)

/-- The slab an object is taken from is the head of `partial`, or of `full` when that is NULL. -/
theorem takeFull_cases (heq : takeFull c a = .ok a') :
    (a' = a ∧ ∃ s, (a.cache c).partialHead = some s) ∨
    ∃ s, (a.cache c).partialHead = none ∧ (a.cache c).fullHead = some s ∧
      a' = setHeads a c (some s) (a.hdr s).next (a.cache c).emptyHead := by
  unfold takeFull at heq
  split at heq
  · rename_i s hp
    exact .inl ⟨(Except.ok.inj heq).symm, s, hp⟩
  · cases heq
  · rename_i s hp hf
    exact .inr ⟨s, hp, hf, (Except.ok.inj heq).symm⟩

theorem allocObject_cases {r : Option ℕ} (heq : allocObject c a = .ok (r, a')) : ∃ a1 s,
    takeFull c a = .ok a1 ∧ (a1.cache c).partialHead = some s ∧ r = (takeObject c s a1).1 ∧
      a' = settle c s (takeObject c s a1).2 := by
  unfold allocObject at heq
  obtain ⟨a1, htake, heq⟩ := returned heq
  split at heq
  · cases heq
  · rename_i s hs
    cases heq
    exact ⟨a1, s, htake, hs, rfl, rfl⟩

section
variable (h : Owned a)
include h

theorem takeFull_moved (hc : c ∈ a.root.caches) (heq : takeFull c a = .ok a') :
    Moved c a a' := by
  rcases takeFull_cases heq with ⟨rfl, -⟩ | ⟨s, -, hf, rfl⟩
  · exact Moved.refl h
  · obtain ⟨-, hown, hown'⟩ := h.heads c hc
    obtain ⟨hs, hsc⟩ := hown s hf
    exact h.setHeads (hf ▸ hown) (h.next s hs c hsc) hown'

theorem takeObject_moved (hs : (a.hdr s).cache = some c) :
    Moved c a (takeObject c s a).2 := by
  unfold takeObject
  split
  · exact Moved.refl h
  · exact h.setMarks hs length_set

theorem settle_moved (hc : c ∈ a.root.caches) (hs : Own a c (some s)) : Moved c a (settle c s a) := by
  unfold settle
  split
  · obtain ⟨-, hf, he⟩ := h.heads c hc
    obtain ⟨hmem, hsc⟩ := hs s rfl
    have h1 := h.setNext hsc he
    exact h1.trans (h1.owned.setHeads (h1.own (h.next s hmem c hsc)) (h1.own hf) (h1.own hs))
  · exact Moved.refl h

theorem allocObject_moved (hc : c ∈ a.root.caches) {r : Option ℕ} (heq : allocObject c a = .ok (r, a')) :
    Moved c a a' := by
  obtain ⟨a1, s, htake, hs, -, rfl⟩ := allocObject_cases heq
  have h1 := takeFull_moved h hc htake
  have hc1 := h1.caches hc
  have hown : Own a1 c (some s) := hs ▸ (h1.owned.heads c hc1).1
  have h2 := takeObject_moved h1.owned (hown s rfl).2
  exact (h1.trans h2).trans (settle_moved h2.owned (h2.caches hc1) (h2.own hown))

theorem slabAlloc_moved {pages : Option ℕ} (hp : ∀ p, pages = some p → FreshPages a p)
    (hfind : findSlabCache a.cache a.root name = some c) {r : Option ℕ}
    (heq : slabAlloc pages name a = .ok (r, a')) : Moved c a a' := by
  have hc := (findSlabCache_mem hfind).1
  rw [slabAlloc, hfind] at heq
  obtain ⟨⟨b, a1⟩, hensure, heq⟩ := returned heq
  have h1 := ensureSlab_moved h hc hp hensure
  cases b with
  | false =>
    cases heq
    exact h1
  | true => exact h1.trans (allocObject_moved h1.owned (h1.caches hc) heq)

/-! ### Release -/

theorem Owned.closed (x : ℕ) (hx : x ∈ a.slabs ∧ (a.hdr x).cache = some c) (y : ℕ)
    (hy : (a.hdr x).next = some y) : y ∈ a.slabs ∧ (a.hdr y).cache = some c :=
  h.next x hx.1 c hx.2 y hy

theorem findSlabForObject_own {head : Option ℕ} (hh : Own a c head) {size obj : ℕ}
    (heq : findSlabForObject a size head obj = .ok (some s)) : Own a c (some s) := by
  unfold findSlabForObject at heq
  split at heq
  · cases heq
  · rename_i r hr
    cases heq
    rintro t ⟨⟩
    exact walk_closed h.closed hh hr

theorem findOwner_own (hc : c ∈ a.root.caches) {obj : ℕ} {wasPartly : Bool}
    (heq : findOwner a c obj = .ok (some (wasPartly, s))) : Own a c (some s) := by
  unfold findOwner at heq
  obtain ⟨hp, -, he⟩ := h.heads c hc
  obtain ⟨r, hr, heq⟩ := returned heq
  cases r with
  | some t =>
    obtain ⟨-, rfl⟩ := Prod.mk.inj (Option.some.inj (Except.ok.inj heq))
    exact findSlabForObject_own h hp hr
  | none =>
    obtain ⟨r, hr, heq⟩ := returned heq
    cases r with
    | some t =>
      obtain ⟨-, rfl⟩ := Prod.mk.inj (Option.some.inj (Except.ok.inj heq))
      exact findSlabForObject_own h he hr
    | none => cases heq

theorem putObject_moved (hs : (a.hdr s).cache = some c) {obj : ℕ} (heq : putObject c s obj a = .ok a') :
    Moved c a a' := by
  unfold putObject at heq
  split at heq
  · cases heq
  · dsimp only at heq
    split at heq
    · cases heq
      exact h.setMarks hs length_set
    · cases heq

theorem unlinkSlab_moved {head head' : Option ℕ} (hh : Own a c head)
    (heq : unlinkSlab a s head = .ok (head', a')) : Moved c a a' ∧ Own a' c head' := by
  unfold unlinkSlab at heq
  split at heq
  · cases heq
  · rename_i head1 n hu
    cases heq
    obtain ⟨hhead, hin, hout⟩ := unlink_closed
      h.closed hh hu
    exact ⟨h.setNexts (fun t ht hown => hin t ⟨ht, hown⟩) fun t ht hne => hout t fun hS => hne hS.2,
      hhead⟩

section
variable (hc : c ∈ a.root.caches) (hs : Own a c (some s))
include hc hs

theorem emptyToPartial_moved (heq : emptyToPartial c s a = .ok a') : Moved c a a' := by
  unfold emptyToPartial at heq
  obtain ⟨⟨head, a1⟩, hu, heq⟩ := returned heq
  cases heq
  obtain ⟨h1, hhead⟩ := unlinkSlab_moved h (h.heads c hc).2.2 hu
  obtain ⟨hp, hf, -⟩ := h1.owned.heads c (h1.caches hc)
  have hs1 := h1.own hs
  have h2 := h1.owned.setNext (hs1 s rfl).2 hp
  exact (h1.trans h2).trans (h2.owned.setHeads (h2.own hs1) (h2.own hf) (h2.own hhead))

theorem partialToFull_moved (heq : partialToFull c s a = .ok a') : Moved c a a' := by
  unfold partialToFull at heq
  obtain ⟨⟨head, a1⟩, hu, heq⟩ := returned heq
  cases heq
  obtain ⟨h1, hhead⟩ := unlinkSlab_moved h (h.heads c hc).1 hu
  obtain ⟨-, hf, he⟩ := h1.owned.heads c (h1.caches hc)
  have hs1 := h1.own hs
  have h2 := h1.owned.setNext (hs1 s rfl).2 hf
  exact (h1.trans h2).trans (h2.owned.setHeads (h2.own hhead) (h2.own hs1) (h2.own he))

theorem freeObject_moved {obj : ℕ} {wasPartly : Bool} {ret : ℤ}
    (heq : freeObject c s obj wasPartly a = .ok (ret, a')) : Moved c a a' := by
  unfold freeObject at heq
  obtain ⟨a1, hput, heq⟩ := returned heq
  obtain ⟨a2, hleave, heq⟩ := returned heq
  obtain ⟨a3, henter, heq⟩ := returned heq
  cases heq
  have h1 := putObject_moved h (hs s rfl).2 hput
  have hc1 := h1.caches hc
  have hs1 := h1.own hs
  have h2 : Moved c a1 a2 := by
    unfold leaveEmpty at hleave
    split at hleave
    · cases hleave
      exact Moved.refl h1.owned
    · exact emptyToPartial_moved h1.owned hc1 hs1 hleave
  refine (h1.trans h2).trans ?_
  unfold enterFull at henter
  split at henter
  · exact partialToFull_moved h2.owned (h2.caches hc1) (h2.own hs1) henter
  · cases henter
    exact Moved.refl h2.owned

end

theorem slabFree_moved (hfind : findSlabCache a.cache a.root name = some c) {obj : ℕ} {ret : ℤ}
    (heq : slabFree name obj a = .ok (ret, a')) : Moved c a a' := by
  have hc := (findSlabCache_mem hfind).1
  rw [slabFree, hfind] at heq
  obtain ⟨r, howner, heq⟩ := returned heq
  cases r with
  | none =>
    cases heq
    exact Moved.refl h
  | some r =>
    obtain ⟨wasPartly, s⟩ := r
    exact freeObject_moved h hc (findOwner_own h hc howner) heq

end

end Moves

end Advos.Slab
