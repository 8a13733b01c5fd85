import Advos.Slab.Create

/-! The tree of the caches as a map from names to caches.

    `_find_slab_cache` and `_add_slab_cache` go down an unbalanced tree, each by its own recursion, to the left
    where `kstrncmp` is negative. Neither relies on an order of the names: a new name is hung where the search
    for it ended, so the search finds it there, and a search for another name goes where it went before, with at
    most one more comparison at the new leaf:

              c                            c
            ╱   ╲      add n             ╱   ╲              search n : ... ─▶ n
          ...    nil   ─────▶          ...    n             search m : ... ─▶ n ─▶ nil
                                            ╱   ╲
                                          nil   nil

    It is enough that names compare as equal only if they are the same, and shorter than 64 bytes they do. -/

namespace Advos.Slab
open Word Function

/-! ### Adding to the tree -/

/-- A name that is not the new one and was not found before is not found. -/
theorem find_add_of_none {cache : ℕ → Cache} {n : ℕ} {name : List UInt8} :
    ∀ {t t' : CacheTree}, kstrncmp nameMax (cache n).name name ≠ 0 → findSlabCache cache t name = none →
      addSlabCache cache n t = some t' → findSlabCache cache t' name = none
  | .nil, t', hne, _, hadd => by
      cases hadd
      rw [findSlabCache, if_neg hne]
      split <;> rfl
  | .node left c right, t', hne, hnone, hadd => by
      rw [findSlabCache] at hnone
      split_ifs at hnone with hz hlt
      all_goals
        rw [addSlabCache] at hadd
        split_ifs at hadd with hz' hlt'
        all_goals
          obtain ⟨t1, ht1, rfl⟩ := Option.map_eq_some_iff.mp hadd
          rw [findSlabCache, if_neg hz]
      · rw [if_pos hlt]
        exact find_add_of_none hne hnone ht1
      · rw [if_pos hlt, hnone]
      · rw [if_neg hlt, hnone]
      · rw [if_neg hlt]
        exact find_add_of_none hne hnone ht1

/-! ### The directory -/

/-- The caches by their names. -/
abbrev Directory := CString → Option ℕ

/-- There are pages for a new slab, and for one of `slab_cache` if that needs one. -/
structure Supplied (a : Allocator) (first : Option ℕ) (second : ℕ) : Prop where
  grants : Grants a first (some second)
  refill : NeedsSlab a → first ≠ none

/-- One call of `memory_slab_create_cache` with memory left and a name that fits, and what it does to the
    directory: nothing if it returns -1, and if it returns 0 the cache that is new in the tree is entered. -/
inductive Creation : Allocator × Directory → Allocator × Directory → Prop
  | refused (a a' : Allocator) (d : Directory) (first : Option ℕ) (second : ℕ) (name : CString) (size : ℕ)
      (hpages : Supplied a first second) (hlen : name.1.length < nameMax)
      (h : memorySlabCreateCache first (some second) name size a = .ok (-1, a')) : Creation (a, d) (a', d)
  | created (a a' : Allocator) (d : Directory) (first : Option ℕ) (second : ℕ) (name : CString) (size c : ℕ)
      (hpages : Supplied a first second) (hlen : name.1.length < nameMax)
      (h : memorySlabCreateCache first (some second) name size a = .ok (0, a'))
      (hnew : c ∈ a'.root.caches) (hold : c ∉ a.root.caches) :
      Creation (a, d) (a', Function.update d name (some c))

/-- What is found is what is entered, for all names that fit. -/
def Lists (a : Allocator) (d : Directory) : Prop :=
  ∀ name : CString, name.1.length < nameMax → findSlabCache a.cache a.root name = d name

section Calls
variable {a a' : Allocator} {d : Directory} {c c0 size second : ℕ} {out : List ℕ} {first : Option ℕ}
  {name : CString}

theorem Supplied.setLock (h : Supplied a first second) (b : Bool) :
    Supplied { a with lock := b } first second :=
  ⟨⟨h.grants.refill, h.grants.slab, h.grants.apart⟩, h.refill⟩

theorem Lists.setLock (h : Lists a d) (b : Bool) : Lists { a with lock := b } d := h

theorem createCache_taken (h : (findSlabCache a.cache a.root name).isSome) :
    createCache first (some second) name size a = .ok (-1, a) := by
  obtain ⟨c, hc⟩ := Option.isSome_iff_exists.mp h
  rw [createCache, hc]
  rfl

theorem createCache_free (h : Ready a c0 out) (hpages : Supplied a first second)
    (hfree : findSlabCache a.cache a.root name = none) (size : ℕ) : ∃ c a1, c ∉ out ∧ Moved c0 a a1 ∧
      createCache first (some second) name size a = fillCache (some second) name size c a1 := by
  rcases createCache_cases h hpages.grants name size with
    ⟨hcond, -⟩ | ⟨-, -, c, a1, hc, heq, hm, -, -⟩
  · rcases hcond with hsome | ⟨hneeds, hnone⟩
    · rw [hfree] at hsome
      cases hsome
    · exact absurd hnone (hpages.refill hneeds)
  · exact ⟨c, a1, hc, hm, heq⟩

variable {a1 : Allocator}

/-- What is found in the old tree is found there with the new cache written. -/
theorem find_withCache (h : Ready a c0 out) (hc : c ∉ out) (hm : Moved c0 a a1) (q size : ℕ)
    (stored key : List UInt8) (root : CacheTree) :
    findSlabCache (withCache a1 c q stored size root).cache a1.root key = findSlabCache a.cache a.root key := by
  rw [find_congr_mem fun x hx => ?_, hm.find]
  have hxc : x ≠ c := by
    rintro rfl
    rw [hm.root] at hx
    exact hc (h.held x hx)
  rw [cache_withCache_of_ne hxc]

theorem kstrlcpy_fits (hlen : name.1.length < nameMax) : kstrlcpy name nameMax = name :=
  List.take_of_length_le (Nat.le_pred_of_lt hlen)

/-- The search for a new name ends where the cache is hung, and finds it there. -/
theorem find_new (h : Ready a c0 out) (hc : c ∉ out) (hm : Moved c0 a a1) (q size : ℕ)
    (hfree : findSlabCache a.cache a.root name = none) : ∃ root,
      addSlabCache (withCache a1 c q name size root).cache c a1.root = some root ∧
        findSlabCache (withCache a1 c q name size root).cache root name = some c := by
  have hself : ((withCache a1 c q name size .nil).cache c).name = name := by rw [cache_withCache_self]
  have hnone : findSlabCache (withCache a1 c q name size .nil).cache a1.root
      ((withCache a1 c q name size .nil).cache c).name = none := by
    rw [hself, find_withCache h hc hm, hfree]
  obtain ⟨root, hroot, hfound⟩ := find_add_self hnone
  rw [hself] at hfound
  exact ⟨root, hroot, hfound⟩

/-- NEW: the cache is entered under its name, and nothing else changes. -/
theorem fillCache_lists (h : Ready a c0 out) (hlists : Lists a d) (hlen : name.1.length < nameMax)
    (hfree : findSlabCache a.cache a.root name = none) {ret : ℤ} (hc : c ∉ out) (hm : Moved c0 a a1)
    (hfill : fillCache (some second) name size c a1 = .ok (ret, a')) :
    ret = 0 ∧ Lists a' (update d name (some c)) ∧
      ∀ x, x ∈ a'.root.caches ↔ x = c ∨ x ∈ a.root.caches := by
  obtain ⟨rfl, -, q, root, -, rfl, hroot⟩ := fillCache_cases hfill
  rw [kstrlcpy_fits hlen] at hroot ⊢
  have hself : ((withCache a1 c q name size root).cache c).name = name := by rw [cache_withCache_self]
  refine ⟨rfl, fun key hkey => ?_, fun x => ?_⟩
  · change findSlabCache (withCache a1 c q name size root).cache root key = _
    by_cases hname : key = name
    · subst hname
      obtain ⟨root', hroot', hfound⟩ := find_new h hc hm q size hfree
      obtain rfl : root = root' := Option.some.inj (hroot.symm.trans hroot')
      rw [hfound, update_self]
    · rw [update_of_ne hname, ← hlists key hkey, ← find_withCache h hc hm q size name key root]
      cases hfind : findSlabCache (withCache a1 c q name size root).cache a1.root key with
      | some x => exact find_add_of_some hfind hroot
      | none =>
        refine find_add_of_none ?_ hfind hroot
        rw [hself]
        exact fun hz => hname (Subtype.ext (eq_of_kstrncmp name.2 key.2 hlen hz))
  · rw [← hm.root]
    exact mem_caches_add hroot x

/-- STEP -/
theorem Creation.lists {x y : Allocator × Directory} (hstep : Creation x y)
    (h : x.1.lock = false ∧ (∃ c0 out, Ready x.1 c0 out) ∧ Lists x.1 x.2) :
    y.1.lock = false ∧ (∃ c0 out, Ready y.1 c0 out) ∧ Lists y.1 y.2 := by
  obtain ⟨-, ⟨c0, out, hready⟩, hlists⟩ := h
  cases hstep with
  | refused a a' d first second name size hpages hlen h =>
    obtain ⟨hlock, out', hready'⟩ := create_ready hready hpages.grants h
    refine ⟨hlock, ⟨c0, out', hready'⟩, ?_⟩
    obtain ⟨-, a1, hcall, rfl⟩ := locked_returned h
    obtain rfl := createCache_refused (hready.setLock true) (hpages.setLock true).grants hcall
    exact (hlists.setLock true).setLock false
  | created a a' d first second name size c hpages hlen h hnew hold =>
    obtain ⟨hlock, out', hready'⟩ := create_ready hready hpages.grants h
    refine ⟨hlock, ⟨c0, out', hready'⟩, ?_⟩
    obtain ⟨-, a1, hcall, rfl⟩ := locked_returned h
    cases hfind : findSlabCache a.cache a.root name with
    | some x =>
      rw [createCache_taken (by rw [hfind]; rfl)] at hcall
      cases hcall
    | none =>
      obtain ⟨c', a2, hc, hm, heq⟩ := createCache_free (hready.setLock true) (hpages.setLock true) hfind size
      rw [heq] at hcall
      obtain ⟨-, hlists', hcaches⟩ := fillCache_lists (hready.setLock true) (hlists.setLock true) hlen hfind hc
        hm hcall
      obtain rfl : c = c' := ((hcaches c).mp hnew).resolve_right hold
      exact hlists'.setLock false

end Calls

end Advos.Slab
