import Advos.Vmem.Effects
import Advos.Vmem.Spans

/-! The translations of the page table and the entries of a space.

    The loops that make the pages of a range map them one after the other, so that together they are
    the range:

        range    |------------------ size ------------------|
        pages    |---- 2 MiB ----|---- 2 MiB ----|-|-|-|-|-|

    Freeing a range does not unmap it. In a run that frees no pages, what is translated is what was
    translated before the run, and the entries. -/

namespace Advos.Space
open Vmem SearchTree Word Arc Function List

variable {σ : Type} {E : Env σ} {v : ℕ} {live : σ → Set ℕ} {maps : σ → List (ℕ × ℕ)} {st st' : St σ}
  {T T' : ℕ → Forest}

/-- The laws of the page table: `maps` has the address and the order of every page that is mapped. -/
structure Translates (E : Env σ) (maps : σ → List (ℕ × ℕ)) : Prop where
  inert : Inert E maps
  physAlloc : ∀ s k z d, maps (E.physAlloc s k z d).2 = maps s
  physFree : ∀ s r k z d, maps (E.physFree s r k z d) = maps s
  map : ∀ s a x p fl, maps (E.map s a x p fl).2 =
    if (E.map s a x p fl).1 < 0 then maps s else (x, p.order) :: maps s
  unmap : ∀ s a x p, (E.unmap s a x p).1 = 0 → (x, p.order) ∈ maps s →
    (maps (E.unmap s a x p).2).Perm ((maps s).erase (x, p.order))

/-- The address `y` is in one of the pages. -/
def translated (l : List (ℕ × ℕ)) (y : ℕ) : Prop := ∃ r ∈ l, arc (r.1, 4096 * 2 ^ r.2) y = true

@[simp] theorem translated_nil (y : ℕ) : ¬translated [] y := by simp [translated]

@[simp] theorem translated_cons {r : ℕ × ℕ} {l : List (ℕ × ℕ)} {y : ℕ} :
    translated (r :: l) y ↔ arc (r.1, 4096 * 2 ^ r.2) y = true ∨ translated l y := by simp [translated]

@[simp] theorem translated_append {l l' : List (ℕ × ℕ)} {y : ℕ} :
    translated (l ++ l') y ↔ translated l y ∨ translated l' y := by
  simp only [translated, mem_append, or_and_right, exists_or]

theorem translated_perm {l l' : List (ℕ × ℕ)} (h : l.Perm l') (y : ℕ) : translated l y ↔ translated l' y := by
  simp only [translated, h.mem_iff]

/-! ### Pages in a row -/

/-- Pages of the orders `ks`, one after the other from `x` on. -/
def places : ℕ → List ℕ → List (ℕ × ℕ)
  | _, [] => []
  | x, k :: ks => (x, k) :: places (add64 x (4096 * 2 ^ k)) ks

/-- The size of pages of the orders `ks` together. -/
def bytes (ks : List ℕ) : ℕ := (ks.map (4096 * 2 ^ ·)).sum

@[simp] theorem bytes_nil : bytes [] = 0 := rfl

@[simp] theorem bytes_cons (k : ℕ) (ks : List ℕ) : bytes (k :: ks) = 4096 * 2 ^ k + bytes ks := rfl

@[simp] theorem bytes_replicate (n k : ℕ) : bytes (List.replicate n k) = n * (4096 * 2 ^ k) := by
  simp [bytes]

@[simp] theorem bytes_append (ks ks' : List ℕ) : bytes (ks ++ ks') = bytes ks + bytes ks' := by
  simp [bytes]

theorem add64_assoc (x a b : ℕ) : add64 (add64 x a) b = add64 x (a + b) := by
  simp only [add64]
  omega

theorem places_append (ks ks' : List ℕ) {x : ℕ} (hx : x < 2 ^ 64) :
    places x (ks ++ ks') = places x ks ++ places (add64 x (bytes ks)) ks' := by
  induction ks generalizing x with
  | nil =>
    have hzero : add64 x 0 = x := add64_of_lt hx
    simp [places, hzero]
  | cons k ks ih => simp [places, ih (add64_lt ..), add64_assoc]

theorem places_replicate (k s n i : ℕ) :
    places (add64 s (4096 * 2 ^ k * i)) (List.replicate n k) =
      (List.range' i n).map fun j => (add64 s (4096 * 2 ^ k * j), k) := by
  induction n generalizing i with
  | zero => rfl
  | succ n ih =>
    have hnext := ih (i + 1)
    rw [Nat.mul_add, Nat.mul_one] at hnext
    rw [replicate_succ, places, add64_assoc, hnext, List.range'_succ, map_cons]

/-- COVER: the pages together are one interval. -/
theorem translated_places {ks : List ℕ} {x y : ℕ} (hx : x < 2 ^ 64) (hks : bytes ks ≤ 2 ^ 64) :
    translated (places x ks) y ↔ arc (x, bytes ks) y = true := by
  induction ks generalizing x with
  | nil => simp [places]
  | cons k ks ih =>
    rw [bytes_cons] at hks ⊢
    have hsplit := arc_split (x := y) hx hks
    rw [places, translated_cons, ih (add64_lt ..) (by omega)]
    split_ifs at hsplit <;> simp_all

/-! ### The loops -/

/-- The address and the order of a planned page. -/
def key (t : ℕ × Page) : ℕ × ℕ := (t.1, t.2.order)

/-- A round of a page loop maps the page that it makes, and nothing if it fails. -/
def MapsPage (maps : σ → List (ℕ × ℕ)) (step : ℕ → Page → Machine σ → Option Page × Machine σ) : Prop :=
  ∀ {x t M r M'}, step x t M = (r, M') → maps M'.env = r.toList.map (fun p => (x, p.order)) ++ maps M.env ∧
    ∀ p ∈ r, p.order = t.order

section Loops
variable (X : Translates E maps) {M M' : Machine σ}
include X

theorem Translates.mapped {s0 s s' : σ} {k z d a x fl : ℕ} {r : Option ℕ} {p : Page} {ret : ℤ}
    (hs : E.physAlloc s0 k z d = (r, s)) (hmap : E.map s a x p fl = (ret, s')) :
    maps s' = if ret < 0 then maps s0 else (x, p.order) :: maps s0 := by
  have hphys := X.physAlloc s0 k z d
  have hkeep := X.map s a x p fl
  rw [hs] at hphys
  rw [hmap, hphys] at hkeep
  exact hkeep

theorem allocPage_maps (v : ℕ) : MapsPage maps (allocPage E v) := by
  intro x t M r M' h
  rcases allocPage_cases h with ⟨rfl, hnode⟩ | ⟨p, M1, hnode, ⟨s, hs, rfl, rfl⟩ | ⟨page, s, ret, s', hs, hpage, hmap, hcases⟩⟩
  · exact ⟨X.inert.allocated hnode, by simp⟩
  · have hphys := X.physAlloc M1.env t.order t.zone t.numadomain
    rw [hs] at hphys
    rw [X.inert.freeNode]
    exact ⟨hphys.trans (X.inert.allocated hnode), by simp⟩
  have hmapped := X.mapped hs hmap
  rw [X.inert.allocated hnode] at hmapped
  rcases hcases with ⟨hneg, rfl, rfl⟩ | ⟨hpos, rfl, rfl⟩
  · rw [if_pos hneg] at hmapped
    dsimp only
    rw [X.physFree, X.inert.freeNode]
    exact ⟨hmapped, by simp⟩
  · rw [if_neg (Int.not_lt.mpr hpos)] at hmapped
    refine ⟨hmapped, fun q hq => ?_⟩
    cases hq
    rw [hpage]

theorem wirePage_maps (v : ℕ) : MapsPage maps (wirePage E v) := by
  intro x t M r M' h
  rcases wirePage_cases h with ⟨rfl, hnode⟩ | ⟨p, M1, ret, s, hnode, hmap, hcases⟩
  · exact ⟨X.inert.allocated hnode, by simp⟩
  have hmapped := X.map M1.env (M1.mem (v + 48)) x { t with addr := p } (M1.mem (v + 40))
  rw [hmap, X.inert.allocated hnode] at hmapped
  rcases hcases with ⟨hneg, rfl, rfl⟩ | ⟨hpos, rfl, rfl⟩
  · rw [if_pos hneg] at hmapped
    rw [X.inert.freeNode]
    exact ⟨hmapped, by simp⟩
  · rw [if_neg (Int.not_lt.mpr hpos)] at hmapped
    exact ⟨hmapped, by simp⟩

omit X in
/-- MAPPED: the pages that a loop has made are mapped in a row. -/
theorem pageLoop_maps {step : ℕ → Page → Machine σ → Option Page × Machine σ} (hstep : MapsPage maps step)
    {plan : List (ℕ × Page)} {x : ℕ} {ks : List ℕ} (hplan : plan.map key = places x ks) {ok : Bool} {ps : List Page}
    (h : pageLoop step plan M = (ok, ps, M')) :
    (maps M'.env).Perm (places x (ps.map Page.order) ++ maps M.env) ∧ (ok = true → ps.map Page.order = ks) := by
  induction plan generalizing x ks M ok ps with
  | nil =>
    obtain ⟨rfl, rfl, rfl⟩ := pageLoop_nil h
    cases ks with
    | nil => exact ⟨List.Perm.refl _, fun _ => rfl⟩
    | cons k ks => simp [places] at hplan
  | cons t plan ih =>
    cases ks with
    | nil => simp [places] at hplan
    | cons k ks =>
      obtain ⟨hkey, hrest⟩ := List.cons.inj hplan
      cases hkey
      rcases pageLoop_cons h with ⟨rfl, rfl, hnone⟩ | ⟨p, qs, M1, hsome, hloop, rfl⟩
      · exact ⟨(hstep hnone).1 ▸ List.Perm.refl _, fun hf => Bool.noConfusion hf⟩
      obtain ⟨hmaps, hord⟩ := hstep hsome
      obtain ⟨hperm, hks⟩ := ih hrest hloop
      refine ⟨hperm.trans ?_, fun hok => by rw [map_cons, hks hok, hord p rfl]⟩
      rw [hmaps, map_cons, places, hord p rfl, Option.toList_some, map_singleton, hord p rfl]
      exact perm_middle

/-- UNMAPPED: the unwinding takes them away. -/
theorem unmapPages_maps {v x : ℕ} {freePhys : Bool} {ps : List Page} {l : List (ℕ × ℕ)}
    (hM : (maps M.env).Perm (places x (ps.map Page.order) ++ l))
    (h : unmapPages E v freePhys x ps M = .ok M') : (maps M'.env).Perm l := by
  induction ps generalizing x M with
  | nil =>
    cases h
    exact hM
  | cons p ps ih =>
    rw [map_cons, places, cons_append] at hM
    obtain ⟨s, hs, h⟩ := unmapPages_cons h
    have hunmap := X.unmap M.env (M.mem (v + 48)) x p (by rw [hs]) (hM.mem_iff.mpr mem_cons_self)
    have herase := hM.erase (x, p.order)
    rw [erase_cons_head] at herase
    rw [hs] at hunmap
    refine ih ?_ h
    rw [X.inert.freeNode]
    dsimp only
    split
    · rw [X.physFree]
      exact hunmap.trans herase
    · exact hunmap.trans herase

end Loops

/-! ### The plans -/

theorem add64_mod (x a : ℕ) : add64 x (a % 2 ^ 64) = add64 x a := by
  simp only [add64]
  omega

theorem singles_keys {x : ℕ} (hx : x < 2 ^ 64) (n : ℕ) (t : ℕ → Page) (ht : ∀ i, (t i).order = 0) :
    ((List.range n).map fun i => (add64 x (4096 * i), t i)).map key = places x (List.replicate n 0) := by
  have hzero : add64 x (4096 * 2 ^ 0 * 0) = x := add64_of_lt hx
  have h := places_replicate 0 x n 0
  rw [hzero, ← range_eq_range'] at h
  rw [h, map_map]
  refine map_congr_left fun i _ => ?_
  simp [key, ht]

theorem blockPlan_keys {start : ℕ} (hs : start < 2 ^ 64) (nr : ℕ) :
    (blockPlan start nr).map (fun x => (x.1, x.2.2)) =
      places start (List.replicate (nr / 512) 9 ++ List.replicate (nr % 512) 0) := by
  have hzero : add64 start (4096 * 2 ^ 9 * 0) = start := add64_of_lt hs
  have hsuper := places_replicate 9 start (nr / 512) 0
  rw [hzero, ← range_eq_range'] at hsuper
  have hend : add64 start (bytes (List.replicate (nr / 512) 9)) < 2 ^ 64 := add64_lt ..
  have hsingle := places_replicate 0 (add64 start (bytes (List.replicate (nr / 512) 9))) (nr % 512) 0
  have hzero' : add64 (add64 start (bytes (List.replicate (nr / 512) 9))) (4096 * 2 ^ 0 * 0) =
      add64 start (bytes (List.replicate (nr / 512) 9)) := add64_of_lt hend
  rw [hzero', ← range_eq_range'] at hsingle
  rw [places_append _ _ hs, hsuper, hsingle, blockPlan, map_append, map_map, map_map]
  congr 1
  · refine map_congr_left fun k _ => ?_
    have hoff : 512 * k * 4096 = 4096 * 2 ^ 9 * k := by omega
    simp only [Function.comp_apply, mul64, add64_mod, hoff]
  · refine map_congr_left fun j _ => ?_
    have hoff : (512 * (nr / 512) + j) * 4096 = nr / 512 * (4096 * 2 ^ 9) + 4096 * 2 ^ 0 * j := by omega
    simp only [Function.comp_apply, mul64, add64_mod, add64_assoc, bytes_replicate, hoff]

theorem pages_keys {start : ℕ} (hs : start < 2 ^ 64) (nr zone domain : ℕ) : (Job.pages start nr zone domain).plan.map key =
    places start (List.replicate (nr / 512) 9 ++ List.replicate (nr % 512) 0) := by
  rw [Job.plan, map_map]
  exact blockPlan_keys hs nr

theorem order_fits {addr1 addr2 size : ℕ} (n k : ℕ) (h : 4096 * 2 ^ k ≤ size) :
    4096 * 2 ^ order addr1 addr2 size n k ≤ size := by
  induction n generalizing k with
  | zero => exact h
  | succ n ih =>
    rw [order]
    split_ifs with _ _ hlarge
    · exact h
    · exact h
    · exact h
    · refine ih (k + 1) ?_
      rw [Nat.pow_add] at hlarge
      rw [Nat.pow_succ]
      omega

theorem wirePlan_keys (n : ℕ) {virtual physical endplus1 : ℕ} (hv : 4096 ∣ virtual) (he : 4096 ∣ endplus1)
    (hle : virtual ≤ endplus1) (hend : endplus1 < 2 ^ 64) (hn : endplus1 - virtual ≤ 4096 * n) :
    ∃ ks, (wirePlan n virtual physical endplus1).map key = places virtual ks ∧ bytes ks = endplus1 - virtual := by
  induction n generalizing virtual physical with
  | zero => exact ⟨[], rfl, by simp only [bytes_nil]; omega⟩
  | succ n ih =>
    rw [wirePlan]
    split
    swap
    · exact ⟨[], rfl, by simp only [bytes_nil]; omega⟩
    obtain ⟨k, hk⟩ : ∃ k, order virtual physical (endplus1 - virtual) 51 0 = k := ⟨_, rfl⟩
    have hfits : 4096 * 2 ^ k ≤ endplus1 - virtual := by
      rw [← hk]
      exact order_fits 51 0 (by omega)
    have hpow : 2 ^ (12 + k) = 4096 * 2 ^ k := Nat.pow_add ..
    have hnext : add64 virtual (4096 * 2 ^ k) = virtual + 4096 * 2 ^ k := add64_of_lt (by omega)
    have hpos : 0 < 2 ^ k := Nat.two_pow_pos k
    obtain ⟨ks, hkeys, hbytes⟩ : ∃ ks, (wirePlan n (virtual + 4096 * 2 ^ k) (add64 physical (4096 * 2 ^ k)) endplus1).map key =
        places (virtual + 4096 * 2 ^ k) ks ∧ bytes ks = endplus1 - (virtual + 4096 * 2 ^ k) :=
      ih (Dvd.dvd.add hv (Dvd.intro _ rfl)) (by omega) (by omega)
    refine ⟨k :: ks, ?_, ?_⟩
    · simp only [hk, hpow, hnext, map_cons, places]
      rw [hkeys]
      rfl
    · rw [bytes_cons, hbytes]
      omega

/-- The range is not larger than its number of pages says, and `virt_memory_wire` does not reach the
    end of the address space: there its loop maps nothing. -/
def Job.Bounded (j : Job) : Prop := j.nr < 2 ^ 52 ∧ (j.any = false → j.wired = true → j.start + 4096 * j.nr < 2 ^ 64)

/-- COVER: the pages of a range are planned in a row, from its start to its end. -/
theorem Job.plan_keys {j : Job} (hj : j.Bounded) (hr : IsSpan j.range ∧ Paged j.range) :
    ∃ ks, j.plan.map key = places j.start ks ∧ bytes ks = mul64 j.nr 4096 := by
  have hsize : mul64 j.nr 4096 = 4096 * j.nr := by
    have hlt := hj.1
    rw [mul64_of_lt (by omega), Nat.mul_comm]
  have hstart : j.start < 2 ^ 64 := hr.1.1
  rw [hsize]
  have hblock : bytes (List.replicate (j.nr / 512) 9 ++ List.replicate (j.nr % 512) 0) = 4096 * j.nr := by
    simp only [bytes_append, bytes_replicate]
    omega
  cases j with
  | addr virtual nr zone domain =>
    exact ⟨List.replicate nr 0, singles_keys hstart nr _ fun _ => rfl, by simp [Job.nr, Nat.mul_comm]⟩
  | wire virtual nr physical =>
    have hend : virtual + 4096 * nr < 2 ^ 64 := hj.2 rfl rfl
    have hlast : add64 virtual (mul64 nr 4096) = virtual + 4096 * nr := by
      have hsize' : mul64 nr 4096 = 4096 * nr := hsize
      rw [hsize', add64_of_lt hend]
    have hdvd : 4096 ∣ virtual := hr.2.1
    have hdvd' : 4096 ∣ virtual + 4096 * nr := Dvd.dvd.add hdvd (Dvd.intro nr rfl)
    obtain ⟨ks, hkeys, hbytes⟩ : ∃ ks, (wirePlan nr virtual physical (virtual + 4096 * nr)).map key = places virtual ks ∧
        bytes ks = virtual + 4096 * nr - virtual :=
      wirePlan_keys nr hdvd hdvd' (by omega) hend (by omega)
    refine ⟨ks, ?_, hbytes.trans (Nat.add_sub_cancel_left ..)⟩
    simp only [Job.plan, Job.start, hlast]
    exact hkeys
  | pages start nr zone domain => exact ⟨_, pages_keys hstart nr zone domain, hblock⟩
  | wire2 start nr physical =>
    refine ⟨_, ?_, hblock⟩
    have hs : start < 2 ^ 64 := hstart
    refine Eq.trans ?_ (blockPlan_keys hs nr)
    rw [Job.plan]
    refine ext_getElem (by simp) fun i hi hi' => ?_
    simp [key]

/-! ### Each change keeps the translations -/

/-- Start and size of the entries of a block. -/
def entrySpans (m : Mem) (t : Forest) : List (ℕ × ℕ) := t.e.inorder.map (span m)

/-- The address `y` is in an entry of the space. -/
def covered (st : St σ) (T : ℕ → Forest) (y : ℕ) : Prop :=
  ∃ d ∈ st.made, ∃ a ∈ entrySpans st.mach.mem (T d.b), arc a y = true

theorem covered_iff {y : ℕ} :
    covered st T y ↔ ∃ e, IsEntry st T e ∧ arc (span st.mach.mem e) y = true := by
  simp only [covered, entrySpans, mem_map, IsEntry]
  constructor
  · rintro ⟨d, hd, a, ⟨e, he, rfl⟩, ha⟩
    exact ⟨e, ⟨d, hd, he⟩, ha⟩
  · rintro ⟨e, ⟨d, hd, he⟩, ha⟩
    exact ⟨d, hd, _, ⟨e, he, rfl⟩, ha⟩

theorem covered_congr {y : ℕ} (hent : ∀ e, IsEntry st' T' e ↔ IsEntry st T e)
    (hword : ∀ e, IsEntry st T e → ∀ i < 40, st'.mach.mem (e + i) = st.mach.mem (e + i)) :
    covered st' T' y ↔ covered st T y := by
  rw [covered_iff, covered_iff]
  refine exists_congr fun e => ?_
  rw [hent e]
  refine and_congr_right fun he => ?_
  have hspan : span st'.mach.mem e = span st.mach.mem e :=
    Prod.ext (hword e he 0 (by decide)) (hword e he 8 (by decide))
  rw [hspan]

theorem covered_carve {d : Made} {f e y : ℕ} {t' : Forest} {x : Entry} {M' : Machine σ} (I : Intact v live st T)
    (hd : d ∈ st.made) (h : Carved v live d.b f (T d.b) t' e x st.mach M') (ho : Backed live st (T d.b) t' x.object M') :
    covered ⟨M', st.made, st.objs⟩ (update T d.b t') y ↔ arc (x.start, x.size) y = true ∨ covered st T y := by
  have hspan : span M'.mem e = (x.start, x.size) := span_eq_of_entryAt h.entry
  have hkept : ∀ e', IsEntry st T e' → span M'.mem e' = span st.mach.mem e' := fun e' he' =>
    have hword := (OneBlock.carve hd h ho).entry_kept I h.keptE he'
    Prod.ext (hword 0 (by decide)) (hword 8 (by decide))
  rw [covered_iff, covered_iff]
  simp only [isEntry_update hd h.entries]
  constructor
  · rintro ⟨e', rfl | he', hy⟩
    · exact .inl (hspan ▸ hy)
    · exact .inr ⟨e', he', hkept e' he' ▸ hy⟩
  · rintro (hy | ⟨e', he', hy⟩)
    · exact ⟨e, .inl rfl, hspan.symm ▸ hy⟩
    · exact ⟨e', .inr he', (hkept e' he').symm ▸ hy⟩

/-- A range adds its own addresses, nothing else adds or takes away. -/
def Mapping (maps : σ → List (ℕ × ℕ)) : Kind → Machine σ → Machine σ → Prop
  | .carve _ _ x, M, M' => (IsSpan (x.start, x.size) ∧ Paged (x.start, x.size)) ∧
    ∀ y, translated (maps M'.env) y ↔ arc (x.start, x.size) y = true ∨ translated (maps M.env) y
  | .free _ _, _, _ => False
  | _, M, M' => ∀ y, translated (maps M'.env) y ↔ translated (maps M.env) y

/-- What is translated is what `l` translates, and the entries. -/
structure Mapped (v : ℕ) (live : σ → Set ℕ) (maps : σ → List (ℕ × ℕ)) (l : List (ℕ × ℕ)) (st : St σ)
    (T : ℕ → Forest) : Prop where
  tidy : Tidy v live st T
  agree : ∀ y, translated (maps st.mach.env) y ↔ translated l y ∨ covered st T y

theorem Change.both (h : Change v live (Mapping maps) st T st' T') (I : Intact v live st T) (y : ℕ) :
    (covered st' T' y ↔ covered st T y) ∧ (translated (maps st'.mach.env) y ↔ translated (maps st.mach.env) y) ∨
    ∃ a, (covered st' T' y ↔ arc a y = true ∨ covered st T y) ∧
      (translated (maps st'.mach.env) y ↔ arc a y = true ∨ translated (maps st.mach.env) y) := by
  have hquiet : ∀ {st' : St σ} {T'}, Quiet st T st' T' → (covered st' T' y ↔ covered st T y) := fun q =>
    covered_congr (fun _ => q.entry) fun _ => q.word
  cases h with
  | grow h hR => exact .inl ⟨hquiet (I.quiet_grow h), hR y⟩
  | same hd h hR => exact .inl ⟨hquiet (I.quiet_same hd h), hR y⟩
  | carve hd hf h ho hown hR => exact .inr ⟨_, covered_carve I hd h ho, hR.2 y⟩
  | free _ _ _ _ hR => exact hR.elim
  | object h hobj hR =>
    exact .inl ⟨covered_congr (fun _ => Iff.rfl) fun e he i hi => h.within.mem e (I.entry_inUse he) id i (by omega), hR y⟩
  | block h hR => exact .inl ⟨hquiet (I.quiet_block h), hR y⟩

/-- KEPT: both sides gain the same addresses. -/
theorem Mapped.change {l : List (ℕ × ℕ)} (S : Mapped v live maps l st T)
    (h : Change v live (Mapping maps) st T st' T') : Mapped v live maps l st' T' := by
  refine ⟨h.tidy (fun hR => hR.1) S.tidy, fun y => ?_⟩
  have hy := S.agree y
  rcases h.both S.tidy.intact y with ⟨hc, ht⟩ | ⟨a, hc, ht⟩
  · rw [hc, ht, hy]
  · rw [hc, ht, hy]
    tauto

/-! ### Calls that free nothing -/

/-- What is left over of the interval for `nr` pages at any address does not start at address 0. -/
def OffZero (st : St σ) (nr : ℕ) : Prop :=
  ∀ d ∈ st.made, ∀ f, searchFitSize d.b (searchSize nr) st.mach.mem = .ok (some f) →
    ∀ r ∈ rest (span st.mach.mem f) (alignStart nr (st.mach.mem f), mul64 nr 4096), r.1 ≠ 0

/-- The call finds no entry to free, its pages have fewer than `2 ^ 64` bytes together, what is wired
    ends before the end of the address space, and nothing is left over at address 0. -/
def Op.Keeps (v : ℕ) (st : St σ) : Op → Prop
  | .blockAdd _ _ => True
  | .allocObject _ => True
  | .allocEntry _ _ _ _ _ => True
  | .allocPages nr _ _ => nr < 2 ^ 52 ∧ OffZero st nr
  | .allocPagesAddr _ nr _ _ => nr < 2 ^ 52
  | .wire virtual nr _ => nr < 2 ^ 52 ∧ virtual + 4096 * nr < 2 ^ 64
  | .wire2 _ nr => nr < 2 ^ 52 ∧ OffZero st nr
  | .freePages addr => ∀ b e, findStart v addr st.mach.mem ≠ .ok (some (b, e))

def Plain (_ : Machine σ) (a : ℕ × ℕ) (j : Job) : Prop :=
  j.Bounded ∧ (j.any = true → ∀ r ∈ rest a j.range, r.1 ≠ 0)

theorem Op.Keeps.meets {op : Op} (h : op.Keeps v st) :
    op.Meets v st Plain (fun _ _ => True) fun _ _ _ => False := by
  cases op with
  | blockAdd => trivial
  | allocObject => trivial
  | allocEntry => exact fun _ _ _ => trivial
  | allocPages => exact fun d hd f hf => ⟨⟨h.1, fun hany => Bool.noConfusion hany⟩, fun _ => h.2 d hd f hf⟩
  | allocPagesAddr => exact fun b f _ => ⟨⟨h, fun _ hw => Bool.noConfusion hw⟩, fun hany => Bool.noConfusion hany⟩
  | wire => exact fun b f _ => ⟨⟨h.1, fun _ _ => h.2⟩, fun hany => Bool.noConfusion hany⟩
  | wire2 => exact fun d hd f hf => ⟨⟨h.1, fun hany => Bool.noConfusion hany⟩, fun _ => h.2 d hd f hf⟩
  | freePages => exact fun b e hf => h b e hf

theorem Job.mapsPage (X : Translates E maps) (j : Job) : MapsPage maps (j.step E v) := by
  rw [Job.step]
  cases j.wired
  · exact allocPage_maps X v
  · exact wirePage_maps X v

theorem mapping_rules (X : Translates E maps) (v : ℕ) :
    Rules E v live (Mapping maps) false Plain (fun _ _ => True) fun _ _ _ => False where
  blockAdd := by
    intro start fin n M M' h
    have hkeep := X.inert.blockAdd h
    split <;> exact fun y => by rw [hkeep]
  allocObject := by
    intro size o M M' h
    have hkeep := X.inert.allocObject h
    split <;> exact fun y => by rw [hkeep]
  range := by
    intro b f t j n ps M M' _ _ hP hj hmade _
    obtain ⟨ks, hkeys, hbytes⟩ := j.plan_keys hP.1 hj
    obtain ⟨M1, M2, h₁, hloop, h₂⟩ := X.inert.rangeMade hmade
    obtain ⟨hperm, hks⟩ := pageLoop_maps (j.mapsPage X) hkeys hloop
    refine ⟨hj, fun y => ?_⟩
    have hcover : translated (places j.start ks) y ↔ arc (j.start, mul64 j.nr 4096) y = true := by
      rw [← hbytes]
      exact translated_places hj.1.1 (hbytes ▸ (mul64_lt ..).le)
    rw [h₂, translated_perm hperm, translated_append, hks rfl, h₁, hcover]
  failed := by
    intro b f j M M' hP hj _ h y
    obtain ⟨ks, hkeys, -⟩ := j.plan_keys hP.1 hj
    rcases X.inert.rangeFailed h with hsame | ⟨ok, ps, M1, M2, M3, M4, h₁, hloop, h₃, hunmap, h4⟩
    · rw [hsame]
    · obtain ⟨hperm, -⟩ := pageLoop_maps (j.mapsPage X) hkeys hloop
      rw [h₁, ← h₃] at hperm
      rw [h4]
      exact translated_perm (unmapPages_maps X hperm hunmap) y
  entry := by
    intro b f e r x M M' _ hx hr hmade
    obtain ⟨M2, ret, h₂, hentry, -, hpages, hret⟩ := X.inert.entryMade hmade
    have hspan : M2.mem e = x.start ∧ M2.mem (e + 8) = x.size :=
      ⟨congrArg Entry.start hentry, congrArg Entry.size hentry⟩
    have hneg : ¬ret < 0 := fun hneg => hr.resolve_right (by decide) (by rw [hret, if_pos hneg])
    refine ⟨hx, fun y => ?_⟩
    rcases allocPages_cases hpages with ⟨h, -⟩ | ⟨ok, ps, M1, hloop, ⟨rfl, -, rfl⟩ | ⟨-, h, -⟩⟩
    · exact absurd h hneg
    · have hkeys := singles_keys (hspan.1 ▸ hx.1.1) (M2.mem (e + 8) / 4096)
        (fun i => ⟨0, add64 (M2.mem (e + 24) / 4096) i, 0, pageFlags (M2.mem (e + 32)) 2, zoneNumaAware, 0, 0⟩) fun _ => rfl
      obtain ⟨hperm, hks⟩ := pageLoop_maps (allocPage_maps X v) hkeys hloop
      have hbytes : bytes (List.replicate (M2.mem (e + 8) / 4096) 0) = x.size := by
        have hdvd : 4096 ∣ x.size := hx.2.2
        rw [bytes_replicate, hspan.2]
        omega
      have hcover : translated (places (M2.mem e) (List.replicate (M2.mem (e + 8) / 4096) 0)) y ↔
          arc (M2.mem e, bytes (List.replicate (M2.mem (e + 8) / 4096) 0)) y = true :=
        translated_places (hspan.1 ▸ hx.1.1) (hbytes ▸ hx.1.2.le)
      rw [setObj_env, translated_perm hperm, translated_append, hks rfl, h₂, hcover, hbytes, hspan.1]
    · exact absurd h hneg
  entryFailed _ hfails := absurd hfails (by decide)
  freed hF _ := hF.elim
  rangeZero hP hany := hP.2 (hany.resolve_left (by decide))
  entryZero _ hfails := absurd hfails (by decide)
  alone hF := hF.elim
  stay _ _ _ _ _ hP := hP

/-- In every run whose calls keep to the condition, an address that was not translated before is
    translated if and only if it is in an entry. -/
theorem entries_translated {M : Machine σ} (hE : Lawful E v live) (X : Translates E maps) (hM : NewSpace v M)
    (h : Relation.ReflTransGen (Step E v fun st op => op.Keeps v st) ⟨M, [], []⟩ st) :
    ∃ T : ℕ → Forest, (∀ d ∈ st.made, Trees d.b st.mach.mem (T d.b).a (T d.b).s (T d.b).e) ∧
      ∀ y, ¬translated (maps M.env) y →
        (translated (maps st.mach.env) y ↔ ∃ e, IsEntry st T e ∧ arc (span st.mach.mem e) y = true) := by
  have hrun : ∃ T, Mapped v live maps (maps M.env) st T := by
    refine Run.invariant (P := fun st => ∃ T, Mapped v live maps (maps M.env) st T) h ⟨_, Tidy.init hM, fun y => ?_⟩ ?_
    · simp [covered]
    · rintro st st' ⟨T, S⟩ ⟨op, hv, hkeeps, hrun⟩
      exact (mapping_rules X v).step hE Mapped.tidy Mapped.change S hv hkeeps.meets (.inl rfl) hrun
  obtain ⟨T, S⟩ := hrun
  refine ⟨T, S.tidy.intact.trees, fun y hy => ?_⟩
  rw [S.agree y, covered_iff]
  exact or_iff_right hy

/-! ### A page table -/

/-- Two pages have an address in common. -/
def overlaps (r r' : ℕ × ℕ) : Bool := r.1 < r'.1 + 4096 * 2 ^ r'.2 ∧ r'.1 < r.1 + 4096 * 2 ^ r.2

/-- A list of the pages that are mapped; what is mapped is not mapped again. -/
def mapRecorder : Recorder (List (ℕ × ℕ)) where
  physAlloc l _ _ _ _ := l
  physFree l _ _ _ _ := l
  refuse l x p := l.any (overlaps (x, p.order))
  map l ret x p := if ret < 0 then l else (x, p.order) :: l
  unmap l ret x p := if ret = 0 then l.erase (x, p.order) else l

theorem mapRecorder_translates (E : Env σ) : Translates (recorded E mapRecorder) Prod.snd where
  inert := recorded_inert E mapRecorder
  physAlloc _ _ _ _ := rfl
  physFree _ _ _ _ _ := rfl
  map s a x p fl := by
    simp only [recorded, mapRecorder]
    by_cases hany : s.2.any (overlaps (x, p.order)) = true
    · simp [hany]
    · simp [hany]
  unmap s a x p hret _ := by
    have hzero : (E.unmap s.1 a x p).1 = 0 := hret
    simp only [recorded, mapRecorder, hzero, if_true]
    exact List.Perm.refl _

/-- The machine before the first call, with an empty page table. -/
def unmapped : Machine (Supply × List (ℕ × ℕ)) := ⟨fun _ => 0, fun _ => ⟨[], 0, 0⟩, ⟨[], 0, 0⟩, []⟩

/-- A block, and three pages in it. -/
theorem entries_translated_three_pages :
    ∃ st, Relation.ReflTransGen (Step (recorded supply mapRecorder) 0x1000 fun st op => op.Keeps 0x1000 st)
        ⟨unmapped, [], []⟩ st ∧
      st.mach.env.2 = [(0x10002000, 0), (0x10001000, 0), (0x10000000, 0)] ∧
      ∃ T : ℕ → Forest, (∀ d ∈ st.made, Trees d.b st.mach.mem (T d.b).a (T d.b).s (T d.b).e) ∧
        ∀ y, ¬translated unmapped.env.2 y →
          (translated st.mach.env.2 y ↔ ∃ e, IsEntry st T e ∧ arc (span st.mach.mem e) y = true) := by
  let E := recorded supply mapRecorder
  let st₁ := after E ⟨unmapped, [], []⟩ (.blockAdd 0x10000000 0x1fffffff)
  have h₁ : Step E 0x1000 (fun st op => op.Keeps 0x1000 st) ⟨unmapped, [], []⟩ st₁ :=
    step_after ⟨by decide, by decide⟩ trivial (by decide +kernel)
  have h₂ : Step E 0x1000 (fun st op => op.Keeps 0x1000 st) st₁ (after E st₁ (.allocPagesAddr 0x10000000 3 1 0)) :=
    step_after ⟨by decide, by decide⟩ (by decide : 3 < 2 ^ 52) (by decide +kernel)
  have hrun := (Relation.ReflTransGen.single h₁).tail h₂
  refine ⟨_, hrun, by decide +kernel, ?_⟩
  exact entries_translated (M := unmapped) (recorded_lawful supply_lawful mapRecorder) (mapRecorder_translates supply)
    rfl hrun

/-- Three pages are allocated and freed: they stay translated although the block has no entry, and they
    cannot be allocated again. -/
theorem freed_still_translated :
    ∃ st, Relation.ReflTransGen (Step (recorded supply mapRecorder) 0x1000 fun _ _ => True) ⟨unmapped, [], []⟩ st ∧
      st.made = [⟨0x10000, 0x10000000, 0x1fffffff⟩] ∧ st.mach.mem (0x10000 + 24) = 0 ∧
      ¬translated unmapped.env.2 0x10000000 ∧ translated st.mach.env.2 0x10000000 ∧
      (virtMemoryAllocPagesAddr (recorded supply mapRecorder) 0x1000 0x10000000 3 1 0 st.mach).toOption.map Prod.fst =
        some 0 := by
  let E := recorded supply mapRecorder
  let st₁ := after E ⟨unmapped, [], []⟩ (.blockAdd 0x10000000 0x1fffffff)
  let st₂ := after E st₁ (.allocPagesAddr 0x10000000 3 1 0)
  let st₃ := after E st₂ (.freePages 0x10000000)
  have h₁ : Step E 0x1000 (fun _ _ => True) ⟨unmapped, [], []⟩ st₁ :=
    step_after ⟨by decide, by decide⟩ trivial (by decide +kernel)
  have h₂ : Step E 0x1000 (fun _ _ => True) st₁ st₂ :=
    step_after ⟨by decide, by decide⟩ trivial (by decide +kernel)
  have h₃ : Step E 0x1000 (fun _ _ => True) st₂ st₃ :=
    step_after (by decide : 0x10000000 < 2 ^ 64) trivial (by decide +kernel)
  have hmaps : st₃.mach.env.2 = [(0x10002000, 0), (0x10001000, 0), (0x10000000, 0)] := by decide +kernel
  refine ⟨st₃, ((Relation.ReflTransGen.single h₁).tail h₂).tail h₃, by decide +kernel, by decide +kernel,
    translated_nil _, ?_, by decide +kernel⟩
  rw [hmaps]
  exact ⟨(0x10000000, 0), by simp, by decide⟩

end Advos.Space
