import Advos.Pgt.Arch
import Advos.Vmem.Maps

/-! Address spaces over the page tables.

    The interfaces of the architecture are those of `arch.c`, on a page table that the environment has.
    The loops that make the pages of a range lay their leaves one after the other:

        pages    |---- order 9 ----|-- order 1 --|-|
        leaves   |     2 MiB       | 4 KiB| 4 KiB|.|

    and the unwinding takes them away, so that a range that fails leaves the translations as they were. -/

namespace Advos.Space
open Vmem Word Pgt

variable {σ : Type} {E : Env σ} {v : ℕ} {live : σ → Set ℕ} {buf : Buffer}

/-- The environment with a page table. -/
def paged (E : Env σ) : Env (σ × PageTable) where
  alloc s u := ((E.alloc s.1 u).1, (E.alloc s.1 u).2, s.2)
  free s u p := ((E.free s.1 u p).1, (E.free s.1 u p).2, s.2)
  physAlloc s k z d := ((E.physAlloc s.1 k z d).1, (E.physAlloc s.1 k z d).2, s.2)
  physFree s r k z d := (E.physFree s.1 r k z d, s.2)
  map s _ x p fl :=
    let r := archMemoryMap s.2 x p.physical p.order p.flags fl
    (r.1, s.1, r.2)
  unmap s _ x p :=
    let r := archMemoryUnmap s.2 x p.order
    (r.1, s.1, r.2)
  prepare s _ x n :=
    let r := archMemoryPrepare s.2 x n
    (r.1, s.1, r.2)
  copy s a d x n := (E.copy s.1 a d x n, s.2)

theorem paged_lawful (hE : Lawful E v live) : Lawful (paged E) v fun s => live s.1 where
  alloc_none := by
    intro s u s' h
    obtain ⟨hr, rfl⟩ := Prod.mk.inj h
    exact hE.alloc_none (Prod.ext hr rfl)
  alloc_some := by
    intro s u p s' h
    obtain ⟨hr, rfl⟩ := Prod.mk.inj h
    exact hE.alloc_some (Prod.ext hr rfl)
  free s u p := hE.free s.1 u p
  physAlloc s k z d := hE.physAlloc s.1 k z d
  physFree s r k z d := hE.physFree s.1 r k z d
  map _ _ _ _ _ := rfl
  unmap _ _ _ _ := rfl
  prepare _ _ _ _ := rfl
  node h := hE.node h

/-- The environment has the page table `tab`, and its interfaces are those of `arch.c`. -/
structure Tabled (E : Env σ) (tab : σ → PageTable) : Prop where
  alloc : ∀ s u, tab (E.alloc s u).2 = tab s
  free : ∀ s u p, tab (E.free s u p).2 = tab s
  physAlloc : ∀ s k z d, tab (E.physAlloc s k z d).2 = tab s
  physFree : ∀ s r k z d, tab (E.physFree s r k z d) = tab s
  map : ∀ s a x p fl, ((E.map s a x p fl).1, tab (E.map s a x p fl).2) =
    archMemoryMap (tab s) x p.physical p.order p.flags fl
  unmap : ∀ s a x p, ((E.unmap s a x p).1, tab (E.unmap s a x p).2) = archMemoryUnmap (tab s) x p.order
  prepare : ∀ s a x n, ((E.prepare s a x n).1, tab (E.prepare s a x n).2) = archMemoryPrepare (tab s) x n

variable {tab : σ → PageTable}

/-! ### Calls that prepare nothing -/

/-- The environment with another `ifs.prepare`. -/
def preparing (E : Env σ) (q : σ → ℕ → ℕ → ℕ → ℤ × σ) : Env σ := { E with prepare := q }

theorem Tabled.inert (H : Tabled E tab) : Inert (preparing E fun s _ _ _ => (0, s)) tab :=
  ⟨H.alloc, H.free, fun _ _ _ _ => rfl⟩

theorem Tabled.allocated {M M' : Machine σ} {r : Option ℕ} (H : Tabled E tab) (h : allocNode E v M = (r, M')) :
    tab M'.env = tab M.env := H.inert.allocated h

theorem Tabled.freed (H : Tabled E tab) (v p : ℕ) (M : Machine σ) : tab (freeNode E v p M).env = tab M.env :=
  H.inert.freeNode v p M

theorem blockAdd_walk {M M' : Machine σ} {start fin n : ℕ} (H : Tabled E tab) (hformed : Formed buf (tab M.env))
    (h : virtMemoryBlockAdd E v start fin M = .ok (n, M')) (hn : n ≠ 0) :
    Formed buf (tab M'.env) ∧ ∀ y, walk (tab M'.env) y = walk (tab M.env) y := by
  obtain ⟨M1, fr, M2, ret, s, c, h1, h2, hprep, -, rfl⟩ := virtMemoryBlockAdd_ok h hn
  have htab := congrArg Prod.snd (H.prepare M2.env (setBlock M2.mem n fr start fin (v + 48)) start
    (add64 (sub64 fin start) 1))
  rw [hprep, H.allocated h2, H.allocated h1] at htab
  dsimp only at htab ⊢
  rw [htab]
  exact hformed.archPrepare _

/-! ### The loops -/

/-- The leaves of pages in a row from `x` on. -/
def laidAt (fl : ℕ) : ℕ → List Page → List Leaf
  | _, [] => []
  | x, p :: ps => leaves x p.physical p.order p.flags fl ++ laidAt fl (add64 x (4096 * 2 ^ p.order)) ps

section Loops
variable {M M' : Machine σ}

end Loops

/-! ### Ranges -/

section Ranges
variable {M M' : Machine σ} {b f start size : ℕ} {plan : List (ℕ × Page)} {ks : List ℕ}
  {step : ℕ → Page → Machine σ → Option Page × Machine σ} {freePhys keepF1 : Bool}

end Ranges

end Advos.Space
