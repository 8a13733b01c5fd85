import Advos.Pgt.Prepared
import Advos.Physmem.Complete
import Advos.Slab.Objects

/-! A new address space (`arch_memory_new`).

    Three resources are taken one after the other: an object for the `virt_memory_t`, 512 pages of the kernel zone
    for its page table, and an object for the `pgt_t`. Then the page table is filled with the kernel's regions. What
    each way out gives back:

        failed            taken before            given back
        virt_memory       -                       -
        pages             virt_memory             -                              virt_memory stays taken
        pgt               virt_memory, pages      virt_memory                    the pages stay taken
        virt_memory_new   all three               all three

    The fields of the two objects are left out: the page table is handed on as it is, and nothing reads the rest here. -/

namespace Advos.NewSpace
open Physmem Slab Pgt Word

/-- `VIRT_MEMORY_SLAB_NAME`, "virt_memory". -/
def virtMemorySlabName : CString := ⟨[118, 105, 114, 116, 95, 109, 101, 109, 111, 114, 121], by decide⟩

/-- `PGT_SLAB_NAME`, "pgt". -/
def pgtSlabName : CString := ⟨[112, 103, 116], by decide⟩

/-- `sizeof(virt_memory_t)`: two pointers, three of the allocator, the flags and a pointer. -/
def sizeofVirtMemory : ℕ := 56

/-- `sizeof(pgt_t)`. -/
def sizeofPgt : ℕ := 24

def kernelLmap : ℕ := 0x100000000

/-- What `arch_memory_new` works on. -/
structure Kernel where
  /-- `g_kvar->phys.czones[MEMORY_ZONE_KERNEL].heads`. -/
  heads : Buddy
  slab : Allocator
  /-- `mem->kmem.arch`. -/
  pgt : PageTable
  /-- `mem->kmem.blocks`, with `start` and `end` of each. -/
  blocks : List (ℕ × ℕ)

/-- The loop of `virt_memory_new`. -/
def virtMemoryNew : List (ℕ × ℕ) → Tables → ℤ × Tables
  | [], s => (0, s)
  | b :: rest, s =>
    let r := archMemoryRefer s b.1 (add64 (sub64 b.2 b.1) 1)
    if r.1 < 0 then (-1, r.2) else virtMemoryNew rest r.2

/-- `arch_memory_new` once it has the two objects and the pages. -/
def fillSpace (vmem pages pgt : ℕ) (k : Kernel) : Except Stop (Option ℕ × Kernel) :=
  match pgtInit k.pgt.mem pages 512 kernelLmap with
  | none => .error .panic
  | some t =>
    let r := virtMemoryNew k.blocks ⟨{ k.pgt with mem := t.mem }, t, k.pgt.with_mem t, []⟩
    let k := { k with pgt := r.2.kernel }
    if r.1 < 0 then do
      let k := { k with heads := physMemBuddyFree k.heads pages 9 }
      let (_, slab) ← memorySlabFree pgtSlabName pgt k.slab
      let (_, slab) ← memorySlabFree virtMemorySlabName vmem slab
      pure (none, { k with slab := slab })
    else pure (some vmem, k)

/-- `arch_memory_new` once it has an object for the space; `pgtPages` is what the page allocator answers when the
    cache of the page tables needs a slab. -/
def preparePgt (pgtPages : Option ℕ) (vmem : ℕ) (k : Kernel) : Except Stop (Option ℕ × Kernel) :=
  let r := physMemBuddyAlloc k.heads 9
  let k := { k with heads := r.2 }
  if r.1 = 0 then pure (none, k)
  else do
    let (pgt, slab) ← memorySlabAlloc pgtPages pgtSlabName k.slab
    let k := { k with slab := slab }
    match pgt with
    | none => do
      let (_, slab) ← memorySlabFree virtMemorySlabName vmem k.slab
      pure (none, { k with slab := slab })
    | some pgt => fillSpace vmem r.1 pgt k

/-- `arch_memory_new`. -/
def archMemoryNew (virtPages pgtPages : Option ℕ) (k : Kernel) : Except Stop (Option ℕ × Kernel) := do
  let (vmem, slab) ← memorySlabAlloc virtPages virtMemorySlabName k.slab
  let k := { k with slab := slab }
  match vmem with
  | none => pure (none, k)
  | some vmem => preparePgt pgtPages vmem k

/-- A state of the kernel after `vmem_callback_init`, with the two caches at `c` and `d`: the slab allocator is in any
    state it can get into, the lists of the zone are in order. -/
structure Booted (k : Kernel) (c d : ℕ) : Prop where
  slab : Reaches k.slab
  virt : findSlabCache k.slab.cache k.slab.root virtMemorySlabName = some c
  virtSize : (k.slab.cache c).size = sizeofVirtMemory
  pgt : findSlabCache k.slab.cache k.slab.root pgtSlabName = some d
  pgtSize : (k.slab.cache d).size = sizeofPgt
  sound : Sound k.heads
  coalesced : Coalesced k.heads

/-- The free pages of the zone and the objects in use of the two caches are the same. -/
structure Restored (k k' : Kernel) (c d : ℕ) : Prop where
  pages : ∀ x, 0 < freeCount k'.heads x ↔ 0 < freeCount k.heads x
  virt : ∀ x, ObjectOf k'.slab c x ↔ ObjectOf k.slab c x
  pgt : ∀ x, ObjectOf k'.slab d x ↔ ObjectOf k.slab d x

section Cleanup
variable {k k' : Kernel} {a : Allocator} {c d vmem : ℕ} {virtPages pgtPages ret : Option ℕ}

theorem Booted.owned (h : Booted k c d) : Owned k.slab := by
  obtain ⟨-, c0, out, hready⟩ := h.slab.ready
  exact hready.owned

theorem Booted.ne (h : Booted k c d) : c ≠ d := by
  rintro rfl
  obtain ⟨-, c0, out, hready⟩ := h.slab.ready
  exact absurd (hready.find_inj h.virt h.pgt) (by decide)

/-- The state after the object for the space was taken. -/
structure HasSpace (k : Kernel) (a : Allocator) (c vmem : ℕ) (virtPages : Option ℕ) : Prop where
  unlocked : a.lock = false
  moved : Moved c k.slab a
  took : Took k.slab a c vmem
  slabs : ∀ s ∈ a.slabs, s ∈ k.slab.slabs ∨ virtPages = some s

section
variable (h : Booted k c d)
include h

theorem archMemoryNew_cases (hg : Grants k.slab virtPages pgtPages) :
    (Exhausted k.slab c virtPages ∧ ∃ k', archMemoryNew virtPages pgtPages k = .ok (none, k') ∧ Restored k k' c d) ∨
      ¬ Exhausted k.slab c virtPages ∧ ∃ a vmem, HasSpace k a c vmem virtPages ∧
        archMemoryNew virtPages pgtPages k = preparePgt pgtPages vmem { k with slab := a } := by
  obtain ⟨r, a, heq, hlock, hm, hslabs, hout⟩ := memorySlabAlloc_objects h.owned h.slab.ready.1 h.virt
    (by rw [h.virtSize]; decide) (by rw [h.virtSize]; decide) hg.refill
  rcases hout with ⟨hex, rfl, hsame⟩ | ⟨hex, vmem, rfl, htook⟩
  · refine .inl ⟨hex, { k with slab := a }, ?_, fun _ => Iff.rfl, hsame, fun x => hm.objectOf_other h.owned h.ne⟩
    rw [archMemoryNew, heq]
    rfl
  · refine .inr ⟨hex, a, vmem, ⟨hlock, hm, htook, hslabs⟩, ?_⟩
    rw [archMemoryNew, heq]
    rfl

theorem preparePgt_without_block (hs : HasSpace k a c vmem virtPages) (hblock : ¬ Stocked k.heads 9)
    (pgtPages : Option ℕ) :
    ∃ k', preparePgt pgtPages vmem { k with slab := a } = .ok (none, k') ∧ ¬ Restored k k' c d := by
  have hzero := (alloc_zero_iff h.sound (by decide)).1.mpr hblock
  refine ⟨{ k with slab := a, heads := (physMemBuddyAlloc k.heads 9).2 }, ?_, fun hr => ?_⟩
  · simp only [preparePgt, hzero, if_true]
    rfl
  · exact hs.took.free ((hr.virt vmem).mp ((hs.took.objects vmem).mpr (.inl rfl)))

/-- The second step, with a block: NULL for the page table, or the object. -/
theorem preparePgt_cases (hg : Grants k.slab virtPages pgtPages) (hs : HasSpace k a c vmem virtPages)
    (hne : (physMemBuddyAlloc k.heads 9).1 ≠ 0) :
    (Exhausted k.slab d pgtPages ∧ ∃ a', preparePgt pgtPages vmem { k with slab := a } = do
        let (_, slab) ← memorySlabFree virtMemorySlabName vmem a'
        pure (none, { k with slab := slab, heads := (physMemBuddyAlloc k.heads 9).2 })) ∨
      ¬ Exhausted k.slab d pgtPages ∧ ∃ a' pgt, Moved d a a' ∧ Took a a' d pgt ∧
        preparePgt pgtPages vmem { k with slab := a } = fillSpace vmem (physMemBuddyAlloc k.heads 9).1 pgt
          { k with slab := a', heads := (physMemBuddyAlloc k.heads 9).2 } := by
  have hd := (findSlabCache_mem h.pgt).1
  have hsize : (a.cache d).size = sizeofPgt := (hs.moved.sizes d).trans h.pgtSize
  obtain ⟨r, a', heq, -, hm, -, hout⟩ := memorySlabAlloc_objects hs.moved.owned hs.unlocked
    ((hs.moved.find _).trans h.pgt) (by rw [hsize]; decide) (by rw [hsize]; decide)
    fun p hp => hg.fresh hp hs.slabs
  rw [hs.moved.exhausted_other h.owned hd h.ne] at hout
  rcases hout with ⟨hex, rfl, -⟩ | ⟨hex, pgt, rfl, htook⟩
  · refine .inl ⟨hex, a', ?_⟩
    simp only [preparePgt, hne, if_false, heq, bind, Except.bind]
  · refine .inr ⟨hex, a', pgt, hm, htook, ?_⟩
    simp only [preparePgt, hne, if_false, heq, bind, Except.bind]

theorem block_not_restored (hne : (physMemBuddyAlloc k.heads 9).1 ≠ 0) (slab : Allocator) :
    ¬ Restored k { k with slab := slab, heads := (physMemBuddyAlloc k.heads 9).2 } c d := by
  obtain ⟨-, hal, -, hcount⟩ := (alloc_spec h.sound (by decide)).2.resolve_left fun hzero => hne hzero.1
  intro hr
  -- the first page of the block
  have hpage := hcount ((physMemBuddyAlloc k.heads 9).1 / pageSize)
  have honce := h.sound.once ((physMemBuddyAlloc k.heads 9).1 / pageSize)
  have hfree := hr.pages ((physMemBuddyAlloc k.heads 9).1 / pageSize)
  rw [pageIn, if_pos (inBlock_first hal)] at hpage
  dsimp only at hfree
  omega

theorem freeCount_free_alloc (hne : (physMemBuddyAlloc k.heads 9).1 ≠ 0) (x : ℕ) :
    freeCount (physMemBuddyFree (physMemBuddyAlloc k.heads 9).2 (physMemBuddyAlloc k.heads 9).1 9) x =
      freeCount k.heads x := by
  obtain ⟨hsound, hout⟩ := alloc_spec h.sound (by decide : 9 ≤ buddyOrder)
  obtain ⟨-, hal, hend, hcount⟩ := hout.resolve_left fun hzero => hne hzero.1
  obtain ⟨-, -, hback⟩ := free_spec (by decide) hsound (alloc_coalesced h.coalesced (by decide)) hne hal hend
    fun y => by rw [hcount]; exact h.sound.once y
  rw [hback, hcount]

/-- With all three: what is taken goes back when `virt_memory_new` fails. -/
theorem fillSpace_restored (hs : HasSpace k a c vmem virtPages) {a' : Allocator} {pgt : ℕ} (hm : Moved d a a')
    (htook : Took a a' d pgt) (hne : (physMemBuddyAlloc k.heads 9).1 ≠ 0)
    (hrun : fillSpace vmem (physMemBuddyAlloc k.heads 9).1 pgt { k with slab := a', heads := (physMemBuddyAlloc k.heads 9).2 } = .ok (none, k')) :
    Restored k k' c d := by
  have hfindV : findSlabCache a'.cache a'.root virtMemorySlabName = some c :=
    (hm.find _).trans ((hs.moved.find _).trans h.virt)
  have hfindP : findSlabCache a'.cache a'.root pgtSlabName = some d :=
    (hm.find _).trans ((hs.moved.find _).trans h.pgt)
  have hsizeV : (a'.cache c).size = sizeofVirtMemory := (hm.sizes c).trans ((hs.moved.sizes c).trans h.virtSize)
  have hsizeP : (a'.cache d).size = sizeofPgt := (hm.sizes d).trans ((hs.moved.sizes d).trans h.pgtSize)
  unfold fillSpace at hrun
  split at hrun
  · cases hrun
  dsimp only at hrun
  split at hrun
  · obtain ⟨⟨r1, a1⟩, hfree1, hrun⟩ := returned hrun
    obtain ⟨⟨r2, a2⟩, hfree2, hrun⟩ := returned hrun
    cases hrun
    obtain ⟨hm1, hput1⟩ := memorySlabFree_objects hm.owned hfindP (by rw [hsizeP]; decide) (by rw [hsizeP]; decide)
      htook.handy hfree1
    have hhandy : Handy a1 c vmem := hm1.handy_other h.ne.symm (hm.handy_other h.ne.symm hs.took.handy)
    obtain ⟨hm2, hput2⟩ := memorySlabFree_objects hm1.owned ((hm1.find _).trans hfindV)
      (by rw [hm1.sizes, hsizeV]; decide) (by rw [hm1.sizes, hsizeV]; decide) hhandy hfree2
    refine ⟨fun x => ?_, hs.took.undone fun x => ?_, fun x => ?_⟩
    · rw [freeCount_free_alloc h hne]
    · rw [hput2, hm1.objectOf_other hm.owned h.ne.symm, hm.objectOf_other hs.moved.owned h.ne.symm]
    · rw [hm2.objectOf_other hm1.owned h.ne, htook.undone hput1, hs.moved.objectOf_other h.owned h.ne]
  · cases (Prod.mk.inj (Except.ok.inj hrun)).1

end

/-- CLEANUP: when `arch_memory_new` returns, NULL means that everything is as before, exactly if there is a block of
    512 pages and an object for the page table whenever there is an object for the space. -/
theorem memory_new_cleanup_iff (h : Booted k c d) (hg : Grants k.slab virtPages pgtPages)
    (hrun : archMemoryNew virtPages pgtPages k = .ok (ret, k')) :
    (ret = none → Restored k k' c d) ↔
      (¬ Exhausted k.slab c virtPages → Stocked k.heads 9 ∧ ¬ Exhausted k.slab d pgtPages) := by
  rcases archMemoryNew_cases h hg with ⟨hex, k₁, heq, hr⟩ | ⟨hex, a, vmem, hs, heq⟩
  · rw [heq] at hrun
    obtain ⟨-, rfl⟩ := Prod.mk.inj (Except.ok.inj hrun)
    exact iff_of_true (fun _ => hr) fun hnot => absurd hex hnot
  rw [heq] at hrun
  by_cases hblock : Stocked k.heads 9
  · have hne : (physMemBuddyAlloc k.heads 9).1 ≠ 0 :=
      fun hzero => (alloc_zero_iff h.sound (by decide)).1.mp hzero hblock
    rcases preparePgt_cases h hg hs hne with ⟨hexP, a', heqP⟩ | ⟨hexP, a', pgt, hm, htook, heqP⟩
    · rw [heqP] at hrun
      obtain ⟨⟨r, slab⟩, -, hrun⟩ := returned hrun
      obtain ⟨rfl, rfl⟩ := Prod.mk.inj (Except.ok.inj hrun)
      refine iff_of_false (fun hr => block_not_restored h hne slab (hr rfl)) fun hall => ?_
      exact (hall hex).2 hexP
    · rw [heqP] at hrun
      refine iff_of_true ?_ fun _ => ⟨hblock, hexP⟩
      rintro rfl
      exact fillSpace_restored h hs hm htook hne hrun
  · obtain ⟨k₁, heq₁, hlost⟩ := preparePgt_without_block h hs hblock pgtPages
    rw [heq₁] at hrun
    obtain ⟨rfl, rfl⟩ := Prod.mk.inj (Except.ok.inj hrun)
    exact iff_of_false (fun hr => hlost (hr rfl)) fun hall => hblock (hall hex).1

end Cleanup

/-! ### Two kernels right after `vmem_callback_init` -/

/-- The allocator after a cache was made with its slab at `p`. -/
def withNewCache (name : CString) (size p : ℕ) (a : Allocator) : Allocator :=
  match memorySlabCreateCache none (some p) name size a with
  | .ok (_, a) => a
  | .error _ => a

theorem withNewCache_reaches {a : Allocator} {p : ℕ} (h : Reaches a) (hp : FreshPages a p) (name : CString)
    (size : ℕ) : Reaches (withNewCache name size p a) := by
  unfold withNewCache
  split
  · rename_i ret a' heq
    obtain ⟨a0, q, a1, h0, hq, hinit, hrun⟩ := h
    exact ⟨a0, q, a1, h0, hq, hinit, hrun.tail (.create a none (some p) name size ret a' (grants_slab hp) heq)⟩
  · exact h

def bootSlab : Allocator :=
  withNewCache pgtSlabName sizeofPgt 0x20000 (withNewCache virtMemorySlabName sizeofVirtMemory 0x10000 onlySlabCache)

/-- The kernel with the given lists in its zone and blocks in its own space. -/
def bootKernel (heads : Buddy) (blocks : List (ℕ × ℕ)) : Kernel :=
  ⟨heads, bootSlab, ⟨0, kernelLmap, 0, fun _ => 0⟩, blocks⟩

/-- The zone with 512 pages at `0x101000000`. -/
def oneBlock : Buddy := (boot 0x101000000 0x101200000).buddy

/-- The zone with a single page. -/
def onePage : Buddy := (boot 4096 8192).buddy

theorem bootSlab_reaches : Reaches bootSlab := by
  have hvirt : FreshPages onlySlabCache 0x10000 := by decide +kernel
  have hpgt : FreshPages (withNewCache virtMemorySlabName sizeofVirtMemory 0x10000 onlySlabCache) 0x20000 := by
    decide +kernel
  exact withNewCache_reaches (withNewCache_reaches onlySlabCache_reaches hvirt _ _) hpgt _ _

theorem bootSlab_caches :
    (findSlabCache bootSlab.cache bootSlab.root virtMemorySlabName = some 0x81f0 ∧
      (bootSlab.cache 0x81f0).size = sizeofVirtMemory) ∧
    findSlabCache bootSlab.cache bootSlab.root pgtSlabName = some 0x8260 ∧
      (bootSlab.cache 0x8260).size = sizeofPgt := by
  decide +kernel

theorem bootKernel_booted {heads : Buddy} (hS : Sound heads) (hC : Coalesced heads) (blocks : List (ℕ × ℕ)) :
    Booted (bootKernel heads blocks) 0x81f0 0x8260 := by
  obtain ⟨⟨hvirt, hvirtSize⟩, hpgt, hpgtSize⟩ := bootSlab_caches
  exact ⟨bootSlab_reaches, hvirt, hvirtSize, hpgt, hpgtSize, hS, hC⟩

theorem boot_ok {base next : ℕ} (hb : base < regionEnd) (hn : next < regionEnd) :
    Sound (boot base next).buddy ∧ Coalesced (boot base next).buddy :=
  ⟨(boot_inv hb hn).sound, (boot_inv hb hn).coalesced⟩

theorem oneBlock_ok : Sound oneBlock ∧ Coalesced oneBlock := boot_ok (by decide) (by decide)

theorem onePage_ok : Sound onePage ∧ Coalesced onePage := boot_ok (by decide) (by decide)

theorem grants_none (a : Allocator) : Grants a none none := ⟨nofun, nofun, nofun⟩

theorem bootSlab_not_exhausted : ¬ Exhausted bootSlab 0x81f0 none ∧ ¬ Exhausted bootSlab 0x8260 none := by
  have hfirst : firstSlab bootSlab 0x81f0 = some 0x10000 ∧ firstSlab bootSlab 0x8260 = some 0x20000 := by
    decide +kernel
  unfold Exhausted
  rw [hfirst.1, hfirst.2]
  decide +kernel

/-- A block of the kernel that is no multiple of 1 GiB: `virt_memory_new` fails, and everything goes back. -/
theorem memory_new_cleanup_iff_odd_block : ∃ k',
    archMemoryNew none none (bootKernel oneBlock [(0, 5)]) = .ok (none, k') ∧
      Restored (bootKernel oneBlock [(0, 5)]) k' 0x81f0 0x8260 := by
  have hret : (archMemoryNew none none (bootKernel oneBlock [(0, 5)])).toOption.map Prod.fst = some none := by
    decide +kernel
  have hblock : Stocked oneBlock 9 := ⟨9, le_rfl, by decide, by decide +kernel⟩
  cases heq : archMemoryNew none none (bootKernel oneBlock [(0, 5)]) with
  | error e => rw [heq] at hret; cases hret
  | ok r =>
    obtain ⟨ret, k'⟩ := r
    rw [heq] at hret
    obtain rfl : ret = none := Option.some.inj hret
    have hiff := memory_new_cleanup_iff (bootKernel_booted oneBlock_ok.1 oneBlock_ok.2 _)
      (grants_none _) heq
    exact ⟨k', rfl, hiff.mpr (fun _ => ⟨hblock, bootSlab_not_exhausted.2⟩) rfl⟩

/-- A zone with a single page: the call returns NULL and keeps an object of `virt_memory`. -/
theorem space_object_lost : Booted (bootKernel onePage []) 0x81f0 0x8260 ∧ ∃ k',
    archMemoryNew none none (bootKernel onePage []) = .ok (none, k') ∧
      ¬ Restored (bootKernel onePage []) k' 0x81f0 0x8260 := by
  have hbooted : Booted (bootKernel onePage []) 0x81f0 0x8260 :=
    bootKernel_booted onePage_ok.1 onePage_ok.2 []
  have hblock : ¬ Stocked onePage 9 := by
    rw [← (alloc_zero_iff onePage_ok.1 (by decide)).1]
    decide +kernel
  refine ⟨hbooted, ?_⟩
  rcases archMemoryNew_cases hbooted (grants_none _) with ⟨hex, -⟩ | ⟨-, a, vmem, hs, heq⟩
  · exact absurd hex bootSlab_not_exhausted.1
  · rw [heq]
    exact preparePgt_without_block hbooted hs hblock none

end Advos.NewSpace
