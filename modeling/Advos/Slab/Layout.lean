import Mathlib.Order.Interval.Set.Disjoint
import Advos.Slab.Runs

/-! The bytes of a slab, for objects of every size.

    `_new_slab` derives everything from one division: of the 32768 bytes, 32 are the header and 64 are kept for the
    alignment, and each of the `nobjs` objects takes `size + 1` bytes of the rest, one of them its mark:

        p        p + 32          p + 32 + nobjs      obj_head                      p + 32768
        | header | marks, nobjs  |  less than 64     | 0 | 1 | ... | nobjs - 1 |   |

    `_slab_alloc` computes the address of an object from its index, and `memory_slab_free` the slab and the index
    from an address. -/

namespace Advos.Slab
open Linked Word List

/-- The bytes of a range, given by its start and its length. -/
def bytesOf (r : ℕ × ℕ) : Set ℕ := Set.Ico r.1 (r.1 + r.2)

/-- Object `i` of the slab with header `h`, where `_slab_alloc` puts it. -/
def objectRange (size : ℕ) (h : Hdr) (i : ℕ) : ℕ × ℕ := (add64 h.objHead (mul64 size i), size)

/-- The ranges of the slab at `p`: header, marks and objects. -/
def slabRanges (p size : ℕ) (h : Hdr) : List (ℕ × ℕ) :=
  (p, hdrSize) :: (p + hdrSize, h.nobjs) :: (List.range h.nobjs).map (objectRange size h)

/-- The slab at `p` with header `h` holds what it is to hold. -/
structure Fits (p size : ℕ) (h : Hdr) : Prop where
  disjoint : (slabRanges p size h).Pairwise fun r t => Disjoint (bytesOf r) (bytesOf t)
  inside : ∀ r ∈ slabRanges p size h, bytesOf r ⊆ Set.Ico p (p + slabBytes)
  aligned : h.objHead % 64 = 0

/-- A list of slabs of a cache for objects of `size` bytes: different slabs, with the counts and the object arrays
    that `_new_slab` gave them. -/
structure SlabList (a : Allocator) (size : ℕ) (head : Option ℕ) (l : List ℕ) : Prop where
  chain : Chain (nexts a) head l
  known : l ⊆ a.slabs
  apart : l.Pairwise Apart
  pages : ∀ q ∈ l, q + slabBytes ≤ 2 ^ 64
  nobjs : ∀ q ∈ l, (a.hdr q).nobjs = (freshHdr q size).nobjs
  objHead : ∀ q ∈ l, (a.hdr q).objHead = (freshHdr q size).objHead

section Layout

variable {a : Allocator} {c p q size i x : ℕ} {head : Option ℕ} {l : List ℕ}

theorem objectRange_fresh (hsize : size < 2 ^ 64 - 1) (hend : p + slabBytes ≤ 2 ^ 64) (hi : i < objCount size) :
    objectRange size (freshHdr p size) i = (objStart p (objCount size) + size * i, size) := by
  rw [objectRange]
  exact congrArg (·, size) (object_address hsize hend hi)

/-- A range that ends before another one starts shares no byte with it. -/
theorem disjoint_bytesOf {r t : ℕ × ℕ} (h : r.1 + r.2 ≤ t.1) : Disjoint (bytesOf r) (bytesOf t) := by
  rw [Set.disjoint_left]
  rintro x ⟨-, hr⟩ ⟨ht, -⟩
  omega

section
variable (hsize : size < 2 ^ 64 - 1) (hend : p + slabBytes ≤ 2 ^ 64)
include hsize hend

theorem slabRanges_ordered :
    (slabRanges p size (freshHdr p size)).Pairwise fun r t => r.1 + r.2 ≤ t.1 := by
  obtain ⟨hstart, -, -⟩ := objStart_layout hsize hend
  have hbehind : ∀ r ∈ (List.range (objCount size)).map (objectRange size (freshHdr p size)),
      p + hdrSize + objCount size ≤ r.1 := by
    intro r hr
    obtain ⟨i, hi, rfl⟩ := mem_map.mp hr
    rw [objectRange_fresh hsize hend (mem_range.mp hi)]
    exact le_trans hstart (Nat.le_add_right _ _)
  refine pairwise_cons.mpr ⟨fun r hr => ?_, pairwise_cons.mpr ⟨hbehind, ?_⟩⟩
  · rcases mem_cons.mp hr with rfl | hr
    · exact le_refl _
    · exact le_trans (Nat.le_add_right _ _) (hbehind r hr)
  · rw [pairwise_map]
    refine pairwise_lt_range.imp_of_mem fun {i j} hi hj hij => ?_
    rw [objectRange_fresh hsize hend (mem_range.mp hi), objectRange_fresh hsize hend (mem_range.mp hj),
      Nat.add_assoc, ← Nat.mul_succ]
    exact Nat.add_le_add_left (Nat.mul_le_mul_left size hij) _

theorem slabRanges_inside :
    ∀ r ∈ slabRanges p size (freshHdr p size), p ≤ r.1 ∧ r.1 + r.2 ≤ p + slabBytes := by
  obtain ⟨hstart, -, hlast⟩ := objStart_layout hsize hend
  intro r hr
  rcases mem_cons.mp hr with rfl | hr
  · exact ⟨le_refl p, Nat.add_le_add_left (show hdrSize ≤ slabBytes by decide) p⟩
  rcases mem_cons.mp hr with rfl | hr
  · have hcount : (freshHdr p size).nobjs = objCount size := rfl
    refine ⟨Nat.le_add_right _ _, ?_⟩
    dsimp only
    omega
  · obtain ⟨i, hi, rfl⟩ := mem_map.mp hr
    have hle := object_end_le size (mem_range.mp hi)
    rw [objectRange_fresh hsize hend (mem_range.mp hi)]
    dsimp only
    omega

theorem fits_freshHdr : Fits p size (freshHdr p size) where
  disjoint := (slabRanges_ordered hsize hend).imp disjoint_bytesOf
  inside := fun r hr x hx => by
    obtain ⟨hlo, hhi⟩ := slabRanges_inside hsize hend r hr
    exact ⟨le_trans hlo hx.1, lt_of_lt_of_le hx.2 hhi⟩
  aligned := (objStart_layout hsize hend).2.1

end

/-! ### From an address back to the object -/

namespace SlabList

theorem length_le (h : SlabList a size head l) : l.length ≤ a.slabs.length := by
  have hnodup : l.Nodup := by
    refine h.apart.imp ?_
    rintro s t hst rfl
    exact not_apart_self s hst
  exact (hnodup.subperm h.known).length_le

theorem laidOut (h : SlabList a size head l) (hsize : size < 2 ^ 64 - 1) : LaidOut a size l where
  size_lt := hsize
  pages := h.pages
  apart := fun s hs t ht hne => by
    have : Std.Symm Apart := ⟨fun _ _ hab => hab.symm⟩
    exact h.apart.forall hs ht hne
  nobjs := h.nobjs
  objHead := h.objHead

/-- FOUND: `_find_slab_for_object` finds the slab of an object. -/
theorem find_eq (h : SlabList a size head l) (hsize : size < 2 ^ 64 - 1) (hp : p ∈ l)
    (hlo : (a.hdr p).objHead ≤ x) (hhi : x < (a.hdr p).objHead + size * objCount size) :
    findSlabForObject a size head x = .ok (some p) := by
  have hwalk : walk (nexts a) (holds a size x) a.slabs.length head = _ := h.chain.walk_eq h.length_le
  rw [find?_eq_of_iff fun q hq => (h.laidOut hsize).holds_iff_eq hp hq hlo hhi, if_pos hp] at hwalk
  unfold nexts at hwalk
  rw [findSlabForObject, hwalk]
  rfl

end SlabList

/-- LAYOUT: the header, the marks and the objects of a new slab are apart and inside its pages, and wherever the slab
    is listed, an address inside an object leads back to the slab and to the index of the object. -/
theorem slab_layout_fits (size p : ℕ) (hpos : 1 ≤ size) (hsize : size < 2 ^ 64 - 1) (hend : p + slabBytes ≤ 2 ^ 64)
    (a₀ : Allocator) :
    (∃ a₁, newSlab (some p) size a₀ = .ok (some p, a₁) ∧ a₁.hdr p = freshHdr p size)
      ∧ Fits p size (freshHdr p size)
      ∧ ∀ (a : Allocator) (c : ℕ) (head : Option ℕ) (l : List ℕ), (a.cache c).size = size → SlabList a size head l →
        p ∈ l → ∀ i < (freshHdr p size).nobjs, ∀ x ∈ bytesOf (objectRange size (freshHdr p size) i),
          findSlabForObject a size head x = .ok (some p)
            ∧ putObject c p x a = .ok (a.setHdr p
              { a.hdr p with marks := (a.hdr p).marks.set i true, nused := (a.hdr p).nused - 1 }) := by
  refine ⟨?_, fits_freshHdr hsize hend, ?_⟩
  · refine ⟨_, by rw [newSlab, if_neg (by rw [add64_of_lt (by omega)]; omega)], ?_⟩
    exact Function.update_self ..
  · intro a c head l hc h hp i hi x hx
    have hi' : i < objCount size := hi
    rw [objectRange_fresh hsize hend hi'] at hx
    obtain ⟨hlo, hhi⟩ := hx
    have hle := object_end_le size hi'
    have hhead : (a.hdr p).objHead = objStart p (objCount size) := h.objHead p hp
    dsimp only at hlo hhi
    rw [← hhead] at hlo hhi
    exact ⟨h.find_eq hsize hp (by omega) (by omega), (h.laidOut hsize).putObject_eq hpos hc hp hi' hlo hhi⟩

end Layout

/-- A byte in the middle of the one object of a slab for objects of 20000 bytes. -/
theorem slab_layout_fits_big_object : findSlabForObject bigCache 20000 (some 0x8000) 0x9000 = .ok (some 0x8000) := by
  have hlist : SlabList bigCache 20000 (some 0x8000) [0x8000] :=
    { chain := ⟨rfl, rfl⟩
      known := List.Subset.refl _
      apart := List.pairwise_singleton _ _
      pages := by simp [slabBytes]
      nobjs := fun _ _ => rfl
      objHead := fun _ _ => rfl }
  have hlayout := slab_layout_fits 20000 0x8000 (by decide) (by decide) (by decide) bigCache
  exact (hlayout.2.2 bigCache 0 (some 0x8000) [0x8000] rfl hlist (List.mem_singleton_self _) 0 (by decide) 0x9000
    ⟨by decide, by decide⟩).1

end Advos.Slab
