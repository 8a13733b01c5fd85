import Advos.Pgt.Orders
import Advos.Vmem.Paged
import Advos.Vmem.PageLists

/-! Wiring a range at a given address (`virt_memory_wire`, `_order`).

    The range is cut into pages that are aligned in virtual and in physical memory, each as large as the
    alignment and what is left of the range allow:

        virtual    |-|--|----|--------|----|-|
        physical   |-|--|----|--------|----|-|

    A page is mapped by leaves of its own, so that an address of the range is translated to the one
    with the same offset. The page tables refuse a leaf where there is one already, but for a 4 KiB leaf
    inside a 2 MiB page, which they write into the frame of the page. -/

namespace Advos.Space
open Vmem Word Pgt List

variable {σ : Type} {E : Env σ} {v : ℕ} {live : σ → Set ℕ} {buf : Buffer}

/-! ### Pages in a row, as leaves -/

/-- Pages of the orders `ks` from the offset `o` of `s` on have their superpages at multiples of 2 MiB. -/
def Level (s : ℕ) : ℕ → List ℕ → Prop
  | _, [] => True
  | o, k :: ks => (9 ≤ k → 2 ^ 21 ∣ s + o) ∧ Level s (o + 4096 * 2 ^ k) ks

variable {W : ℕ → Option Xlat}

/-- The physical address of an address. -/
def translate (t : PageTable) (y : ℕ) : Option ℕ := (walk t y).map fun x => x.frame + y % x.size

theorem leaves_translate {x p k pgf fl j : ℕ} (h : ∀ r ∈ leaves x p k pgf fl, ∀ y, r.Has y → W y = some r.xlat)
    (hx : pagesizeOf k ∣ x) (hp : pagesizeOf k ∣ p) (hxlt : x + 4096 * 2 ^ k ≤ 2 ^ 64)
    (hplt : p + 4096 * 2 ^ k ≤ 2 ^ 52) (hj : j < 2 ^ k) :
    (W (x + 4096 * j)).map (fun t => t.frame + (x + 4096 * j) % t.size) = some (p + 4096 * j) := by
  obtain ⟨r, hr, hhas, hframe, -⟩ := leaf_of_offset hx hp hxlt hplt (Nat.le_add_right x (4096 * j)) (by omega) rfl
  rw [h r hr _ hhas, Option.map_some, hframe, Nat.add_sub_cancel_left]

/-! ### Orders -/

/-- A page of order `k` may start at both addresses, and is not larger than `size`. -/
def Fits (virtual physical size k : ℕ) : Prop :=
  4096 * 2 ^ k ∣ virtual ∧ 4096 * 2 ^ k ∣ physical ∧ 4096 * 2 ^ k ≤ size

/-- `k` is the largest order that fits. -/
def Largest (virtual physical size k : ℕ) : Prop :=
  Fits virtual physical size k ∧ ∀ j, Fits virtual physical size j → j ≤ k

theorem page_dvd_iff (a k : ℕ) (ha : 4096 ∣ a) : 4096 * 2 ^ k ∣ a ↔ a / 4096 % 2 ^ k = 0 := by
  rw [← Nat.dvd_iff_mod_eq_zero, Nat.dvd_div_iff_mul_dvd ha]

theorem order_lt {a k j : ℕ} (ha : 4096 ∣ a) (hk : a / 4096 % 2 ^ (k + 1) ≠ 0) (hj : 4096 * 2 ^ j ∣ a) : j ≤ k := by
  by_contra hlt
  refine hk ((page_dvd_iff a (k + 1) ha).mp ((Nat.mul_dvd_mul_left 4096 ?_).trans hj))
  exact Nat.pow_dvd_pow 2 (by omega)

/-- The pages cover `size` bytes from `virtual` on with the frames from `physical` on, each of the largest
    order that fits where it starts. -/
def Chunks : ℕ → ℕ → ℕ → List Page → Prop
  | _, _, size, [] => size = 0
  | virtual, physical, size, p :: ps => p.physical = physical ∧ Largest virtual physical size p.order ∧
    Chunks (virtual + 4096 * 2 ^ p.order) (physical + 4096 * 2 ^ p.order) (size - 4096 * 2 ^ p.order) ps

theorem Chunks.level {virtual physical size : ℕ} {ps : List Page} (h : Chunks virtual physical size ps) :
    Level 0 virtual (ps.map Page.order) := by
  induction ps generalizing virtual physical size with
  | nil => trivial
  | cons p ps ih =>
    refine ⟨fun hk => ?_, ih h.2.2⟩
    have hdvd := pagesizeOf_dvd h.2.1.1.1
    rw [pagesizeOf, if_pos hk] at hdvd
    rwa [Nat.zero_add]

theorem Chunks.translate {virtual physical size fl : ℕ} {ps : List Page} (hc : Chunks virtual physical size ps)
    (hv : virtual + size < 2 ^ 64) (hp : physical + size ≤ 2 ^ 52)
    (h : ∀ r ∈ laidAt fl virtual ps, ∀ y, r.Has y → W y = some r.xlat) {j : ℕ} (hj : 4096 * j < size) :
    (W (virtual + 4096 * j)).map (fun t => t.frame + (virtual + 4096 * j) % t.size) = some (physical + 4096 * j) := by
  induction ps generalizing virtual physical size j with
  | nil =>
    have hzero : size = 0 := hc
    omega
  | cons p ps ih =>
    obtain ⟨rfl, hlargest, hrest⟩ := hc
    obtain ⟨hdv, hdp, hfits⟩ := hlargest.1
    rw [laidAt, add64_of_lt (by omega)] at h
    by_cases hfirst : j < 2 ^ p.order
    · exact leaves_translate (fun r hr => h r (mem_append_left _ hr)) (pagesizeOf_dvd hdv) (pagesizeOf_dvd hdp)
        (by omega) (by omega) hfirst
    · obtain ⟨i, rfl⟩ := Nat.exists_eq_add_of_le (not_lt.mp hfirst)
      have hlater := ih hrest (by omega) (by omega) (fun r hr => h r (mem_append_right _ hr)) (j := i) (by omega)
      rw [Nat.mul_add, ← Nat.add_assoc, ← Nat.add_assoc]
      exact hlater

/-! ### `virt_memory_wire` -/

/-- The `nr` pages from `virtual` on are those from `physical` on. -/
def Linear (t : PageTable) (virtual physical nr : ℕ) : Prop :=
  ∀ k < nr, translate t (virtual + 4096 * k) = some (physical + 4096 * k)

section Wire
variable {st : St (σ × PageTable)} {T : ℕ → Forest} {M' : Machine (σ × PageTable)} {virtual nr physical : ℕ}

end Wire

/-- A machine before the first call, with a page table of four pages. -/
def blankPaged : Machine (Supply × PageTable) :=
  ⟨fun _ => 0, fun _ => ⟨[], 0, 0⟩, ⟨[], 0, 0⟩,
    (pgtInit (fun _ => 0) fourPages.base fourPages.nr fourPages.p2v).getD ⟨0, 0, 0, fun _ => 0⟩⟩

theorem blankPaged_formed : Formed fourPages blankPaged.env.2 :=
  Reach.formed ⟨fun _ => 0, _, rfl, .refl⟩

/-- The space with one block, of 1 GiB. -/
def oneBlock : St (Supply × PageTable) := after (paged supply) ⟨blankPaged, [], []⟩ (.blockAdd 0x40000000 0x7fffffff)

theorem after_blockAdd_formed {tab : σ → PageTable} {st : St σ} (H : Tabled E tab) (hformed : Formed buf (tab st.mach.env))
    {start fin : ℕ} (h : ((Op.blockAdd start fin).run E 0x1000 st).toOption.map Prod.fst = some true) :
    Formed buf (tab (after E st (.blockAdd start fin)).mach.env) := by
  obtain ⟨⟨n, M'⟩, hadd, hret⟩ := returned (run_after h)
  obtain ⟨hn, hst⟩ := Prod.mk.inj (Except.ok.inj hret)
  rw [← hst]
  exact (blockAdd_walk H hformed hadd (of_decide_eq_true hn)).1

end Advos.Space
