import Advos.Schemes.Run
import Advos.Vmem.Calls

/-! One call on an address space, as a sequence of changes.

    What holds of the state before a call and is kept by every change holds after the call. The calls
    differ in what is known of their changes: `Rules` has one clause for each part of the code that
    makes a change, and a condition on the ranges, entries and frees that may come up in a call. -/

namespace Advos.Space
open Vmem SearchTree Word Function

variable {σ : Type} {E : Env σ} {v : ℕ} {live : σ → Set ℕ} {st st' : St σ} {T T' : ℕ → Forest} {m m' : Mem}
  {R : Kind → Machine σ → Machine σ → Prop}

/-! ### A property of every block -/

section Blocks
variable (Φ : Mem → Made → Forest → Prop) (hΦ : ∀ {m m' d t}, Φ m d t → Kept 16 t.nodes m m' → Φ m' d t)
include hΦ

/-- The blocks that a change does not touch keep what is read off their intervals. -/
theorem OneBlock.blocks {d : Made} {o : ℕ} {M' : Machine σ} {t' : Forest} (h : OneBlock v live st T d o M')
    (I : Intact v live st T) (S : ∀ d ∈ st.made, Φ st.mach.mem d (T d.b))
    (hd : ∀ d', Φ st.mach.mem d' (T d.b) → Φ M'.mem d' t') :
    ∀ d' ∈ st.made, Φ M'.mem d' (update T d.b t' d'.b) := by
  intro d' hd'
  rcases eq_or_ne d'.b d.b with heq | hne
  · rw [heq, update_self]
    exact hd d' (heq ▸ S d' hd')
  · rw [update_of_ne hne]
    refine hΦ (S d' hd') fun s hs i hi => ?_
    exact ((h.other_block I hd' hne).2 s (.inr hs)).2 i (by omega)

theorem Change.blocks
    (hcarve : ∀ {b f t t' e x own d} {M M' : Machine σ}, f ∈ t.a.inorder → Carved v live b f t t' e x M M' →
      R (.carve own (span M.mem f) x) M M' → Φ M.mem d t → Φ M'.mem d t')
    (hfree : ∀ {b t t' e O d} {M M' : Machine σ}, Trees b M.mem t.a t.s t.e → Freed v live b t t' e O M M' →
      R (.free b e) M M' → Φ M.mem d t → Φ M'.mem d t')
    (hnew : ∀ {m n fr start fin}, span m fr = firstFree start fin →
      Φ m ⟨n, start, fin⟩ ⟨.node .nil fr .nil, .node .nil fr .nil, .nil⟩)
    (h : Change v live R st T st' T') (I : Intact v live st T) (S : ∀ d ∈ st.made, Φ st.mach.mem d (T d.b)) :
    ∀ d ∈ st'.made, Φ st'.mach.mem d (T' d.b) := by
  cases h with
  | grow h _ =>
    intro d hd
    refine hΦ (S d hd) fun s hs i hi => ?_
    exact h.mem s ((I.block hd).home.nodes s hs) id i (by omega)
  | @same d M' hd h _ =>
    have hkept : Kept 16 (T d.b).nodes st.mach.mem M'.mem := by
      intro s hs i hi
      rcases List.mem_append.mp hs with hs | hs
      · exact h.keptA s hs i hi
      · exact h.keptE s hs i (by omega)
    have hall : ∀ d' ∈ st.made, Φ M'.mem d' (update T d.b (T d.b) d'.b) :=
      (OneBlock.same hd h).blocks Φ hΦ I S fun _ hd' => hΦ hd' hkept
    rwa [update_eq_self] at hall
  | carve hd hf h ho _ hR => exact (OneBlock.carve hd h ho).blocks Φ hΦ I S fun _ hd' => hcarve hf h hR hd'
  | @free d e t' M' hd he hrefs h hR =>
    exact (OneBlock.free hd he h).blocks Φ hΦ I S fun _ hd' => hfree (I.trees d hd) h hR hd'
  | object h hobj _ =>
    intro d hd
    refine hΦ (S d hd) fun s hs i hi => ?_
    exact h.within.mem s ((I.block hd).home.nodes s hs) id i (by omega)
  | @block n fr start fin M' h _ =>
    intro d hd
    rcases List.mem_cons.mp hd with rfl | hd
    · simp only [update_self]
      exact hnew h.span_eq
    · have hne : d.b ≠ n := fun heq => h.new.1 (heq ▸ (I.block hd).home.block)
      rw [update_of_ne hne]
      exact hΦ (S d hd) fun s hs i hi =>
        h.nodes s ((I.block hd).home.nodes s hs) (fun d' hd' => I.not_block hd hd' hs) i (by omega)

end Blocks

/-! ### Whole pages -/

theorem firstFree_paged (start fin : ℕ) : IsSpan (firstFree start fin) ∧ Paged (firstFree start fin) := by
  have hmask : not64 4095 = not64 (2 ^ 12 - 1) := rfl
  have hround : ∀ x < 2 ^ 64, (x &&& not64 4095) < 2 ^ 64 ∧ 4096 ∣ x &&& not64 4095 := by
    intro x hx
    refine ⟨lt_of_le_of_lt Nat.and_le_left hx, ?_⟩
    rw [hmask, and_not_mask hx]
    exact Dvd.intro _ rfl
  obtain ⟨h1, h1'⟩ := hround (sub64 (add64 start 4096) 1) (sub64_lt ..)
  obtain ⟨-, h2'⟩ := hround (add64 fin 1) (add64_lt ..)
  exact ⟨⟨h1, sub64_lt ..⟩, h1', dvd_sub64 h2' h1'⟩

theorem alignStart_lt (nr : ℕ) {start : ℕ} (hs : start < 2 ^ 64) : alignStart nr start < 2 ^ 64 := by
  rw [alignStart]
  split
  · exact lt_of_le_of_lt Nat.and_le_left (add64_lt ..)
  · exact hs

theorem alignStart_paged (nr : ℕ) {start : ℕ} (hs : start < 2 ^ 64) (h : 4096 ∣ start) :
    alignStart nr start < 2 ^ 64 ∧ 4096 ∣ alignStart nr start := by
  refine ⟨alignStart_lt nr hs, ?_⟩
  rw [alignStart]
  split
  · rw [and_not_mask (add64_lt ..)]
    exact Dvd.dvd.mul_right (by decide) _
  · exact h

theorem alignStart_super {nr start : ℕ} (h : 2 ^ 21 ≤ mul64 nr 4096) : 2 ^ 21 ∣ alignStart nr start := by
  rw [alignStart]
  split
  · rw [and_not_mask (add64_lt ..)]
    exact Nat.dvd_mul_right ..
  · next hnot =>
    rw [not_and, not_not] at hnot
    exact Nat.dvd_of_mod_eq_zero (hnot h)

theorem join_paged {f e : ℕ × ℕ} (hf : IsSpan f ∧ Paged f) (he : IsSpan e ∧ Paged e) :
    IsSpan (join f e) ∧ Paged (join f e) := by
  have hsize : 4096 ∣ add64 f.2 e.2 := dvd_add64 hf.2.2 he.2.2
  rw [join]
  split
  · exact ⟨⟨he.1.1, add64_lt ..⟩, he.2.1, hsize⟩
  · exact ⟨⟨hf.1.1, add64_lt ..⟩, hf.2.1, hsize⟩

/-- The structures of a block are whole pages. -/
def Whole (m : Mem) (t : Forest) : Prop := ∀ s ∈ t.nodes, IsSpan (span m s) ∧ Paged (span m s)

section Whole
variable {t t' : Forest} {b f e : ℕ} {x : Entry} {O : ℕ → Prop} {M M' : Machine σ}

theorem Whole.kept (h : Whole m t) (hk : Kept 16 t.nodes m m') : Whole m' t := by
  intro s hs
  rw [hk.span_eq (by decide) hs]
  exact h s hs

theorem Whole.carve (h : Whole M.mem t) (hc : Carved v live b f t t' e x M M') (hf : f ∈ t.a.inorder)
    (hx : IsSpan (x.start, x.size) ∧ Paged (x.start, x.size)) : Whole M'.mem t' := by
  obtain ⟨used, hpa, hspans, -⟩ := hc.frees
  obtain ⟨hfs, hfp⟩ := h f (List.mem_append_left _ hf)
  intro s hs
  rcases List.mem_append.mp hs with hs | hs
  · rcases List.mem_append.mp (hpa.mem_iff.mp hs) with hs | hs
    · have hr : span M'.mem s ∈ rest (span M.mem f) (x.start, x.size) := hspans ▸ List.mem_map_of_mem hs
      exact ⟨rest_isSpan hfs hr, rest_paged hfp hx.2 hr⟩
    · rw [hc.keptA.span_eq (by decide) hs]
      exact h s (List.mem_append_left _ (List.mem_of_mem_erase hs))
  · rcases List.mem_cons.mp (hc.entries.mem_iff.mp hs) with rfl | hs
    · rw [span_eq_of_entryAt hc.entry]
      exact hx
    · rw [(hc.keptE.mono (by decide : 16 ≤ 40)).span_eq (by decide) hs]
      exact h s (List.mem_append_right _ hs)

theorem Whole.free (h : Whole M.mem t) (hc : Freed v live b t t' e O M M') : Whole M'.mem t' := by
  have hmem : ∀ s, s = e ∨ s ∈ t'.e.inorder → s ∈ t.nodes := fun s hs =>
    List.mem_append_right _ (hc.entries.mem_iff.mpr (List.mem_cons.mpr hs))
  intro s hs
  rcases List.mem_append.mp hs with hs | hs
  · rcases hc.frees with ⟨hpa, hse, hk⟩ | ⟨f, hf, hpa, -, hsf, hk⟩
    · rcases List.mem_cons.mp (hpa.mem_iff.mp hs) with rfl | hs
      · rw [hse]
        exact h s (hmem s (.inl rfl))
      · rw [hk.span_eq (by decide) hs]
        exact h s (List.mem_append_left _ hs)
    · rcases List.mem_cons.mp (hpa.mem_iff.mp hs) with rfl | hs
      · rw [hsf]
        exact join_paged (h s (List.mem_append_left _ hf)) (h e (hmem e (.inl rfl)))
      · rw [hk.span_eq (by decide) hs]
        exact h s (List.mem_append_left _ (List.mem_of_mem_erase hs))
  · rw [(hc.keptE.mono (by decide : 16 ≤ 40)).span_eq (by decide) hs]
    exact h s (hmem s (.inr hs))

theorem Whole.new {fr start fin : ℕ} (h : span m fr = firstFree start fin) :
    Whole m ⟨.node .nil fr .nil, .node .nil fr .nil, .nil⟩ := by
  intro s hs
  obtain rfl : s = fr := by simpa [Forest.nodes] using hs
  rw [h]
  exact firstFree_paged start fin

end Whole

/-- The structures of the space are intact, and in whole pages. -/
structure Tidy (v : ℕ) (live : σ → Set ℕ) (st : St σ) (T : ℕ → Forest) : Prop where
  intact : Intact v live st T
  whole : ∀ d ∈ st.made, Whole st.mach.mem (T d.b)

theorem Change.tidy (hR : ∀ {own f x M M'}, R (.carve own f x) M M' → IsSpan (x.start, x.size) ∧ Paged (x.start, x.size))
    (h : Change v live R st T st' T') (S : Tidy v live st T) : Tidy v live st' T' := by
  refine ⟨h.intact S.intact, ?_⟩
  exact h.blocks (fun m _ t => Whole m t) Whole.kept (fun hf hc hr hw => hw.carve hc hf (hR hr))
    (fun _ hc _ hw => hw.free hc) Whole.new S.intact S.whole

theorem isEntry_new (M : Machine σ) (e : ℕ) : ¬IsEntry ⟨M, [], []⟩ (fun _ => ⟨.nil, .nil, .nil⟩) e := by
  rintro ⟨d, hd, -⟩
  cases hd

theorem owners_new (M : Machine σ) (x : Owner) : x ∉ owners ⟨M, [], []⟩ fun _ => ⟨.nil, .nil, .nil⟩ := by
  cases x with
  | block b =>
    rintro ⟨d, hd, -⟩
    cases hd
  | object o =>
    rintro (ho | ⟨e, he, -⟩)
    · cases ho
    · exact isEntry_new M e he

theorem Tidy.init {M : Machine σ} (h : NewSpace v M) : Tidy v live ⟨M, [], []⟩ fun _ => ⟨.nil, .nil, .nil⟩ := by
  refine ⟨⟨⟨[], ?_, by simp⟩, by simp, ⟨fun x hx => absurd hx (owners_new M x), fun x hx => absurd hx (owners_new M x)⟩,
    by simp, fun e he => absurd he (isEntry_new M e), fun e _ he => absurd he (isEntry_new M e)⟩, by simp⟩
  rw [Linked.chain_nil, h, ptr, if_pos rfl]

/-! ### The other blocks -/

section Other
variable {d : Made} {o : ℕ} {M' : Machine σ}

theorem OneBlock.next (h : OneBlock v live st T d o M') (I : Intact v live st T) (hhead : Kept 24 [d.b] st.mach.mem M'.mem) :
    ∀ d' ∈ st.made, M'.mem (d'.b + 16) = st.mach.mem (d'.b + 16) := by
  intro d' hd'
  rcases eq_or_ne d'.b d.b with heq | hne
  · rw [heq]
    exact hhead d.b (List.mem_singleton_self _) 16 (by decide)
  · exact ((h.other_block I hd' hne).2 d'.b (.inl rfl)).2 16 (by decide)

theorem OneBlock.search (h : OneBlock v live st T d o M') (I : Intact v live st T) {d' : Made} (hd' : d' ∈ st.made)
    (hne : d'.b ≠ d.b) {sz f : ℕ} (hf : searchFitSize d'.b sz M'.mem = .ok (some f)) :
    searchFitSize d'.b sz st.mach.mem = .ok (some f) ∧ span M'.mem f = span st.mach.mem f := by
  obtain ⟨B', hword⟩ := h.other_block I hd' hne
  have hk : Kept 16 (T d'.b).a.inorder st.mach.mem M'.mem := fun s hs i hi =>
    (hword s (.inr (List.mem_append_left _ hs))).2 i (by omega)
  rw [searchFitSize_congr (I.trees d' hd') B'.trees hk] at hf
  exact ⟨hf, hk.span_eq (by decide) (searchFitSize_sound I hd' hf).1⟩

end Other

/-! ### Rules -/

/-- What may come up in a call: ranges meet `P` in the free interval found for them, entries `Q`, and
    entries that are freed `F`. -/
def Op.Meets (v : ℕ) (st : St σ) (P : Machine σ → ℕ × ℕ → Job → Prop) (Q : ℕ × ℕ → Entry → Prop)
    (F : Machine σ → ℕ → ℕ → Prop) : Op → Prop
  | .blockAdd _ _ => True
  | .allocObject _ => True
  | .allocEntry o addr size offset flags => ∀ b f, findFree v addr st.mach.mem = .ok (some (b, f)) →
    Q (span st.mach.mem f) ⟨addr, size, o, offset, flags⟩
  | .allocPages nr zone domain => ∀ d ∈ st.made, ∀ f, searchFitSize d.b (searchSize nr) st.mach.mem = .ok (some f) →
    P st.mach (span st.mach.mem f) (.pages (alignStart nr (st.mach.mem f)) nr zone domain)
  | .allocPagesAddr virtual nr zone domain => ∀ b f, findFree v virtual st.mach.mem = .ok (some (b, f)) →
    P st.mach (span st.mach.mem f) (.addr virtual nr zone domain)
  | .wire virtual nr physical => ∀ b f, findFree v virtual st.mach.mem = .ok (some (b, f)) →
    P st.mach (span st.mach.mem f) (.wire virtual nr physical)
  | .wire2 physical nr => ∀ d ∈ st.made, ∀ f, searchFitSize d.b (searchSize nr) st.mach.mem = .ok (some f) →
    P st.mach (span st.mach.mem f) (.wire2 (alignStart nr (st.mach.mem f)) nr physical)
  | .freePages addr => ∀ b e, findStart v addr st.mach.mem = .ok (some (b, e)) → F st.mach b e

/-- The object of the entry is not shared. If the entry starts at address 0, there is no free interval
    in its block, or one next to it. -/
def FreesAlone (M : Machine σ) (b e : ℕ) : Prop :=
  (M.obj (objectOf M e)).refs < 2 ∧ (M.mem e ≠ 0 ∨ M.mem (b + 32) = 0 ∨
    ∃ f, findNeighborFreeEntry b (M.mem e) (add64 (M.mem e) (M.mem (e + 8))) M.mem = .ok (some f))

/-- What is known of the changes that the calls make, for ranges in `P`, entries in `Q` and entries freed
    in `F`; `fails` says whether it is to hold of calls that fail too. -/
structure Rules (E : Env σ) (v : ℕ) (live : σ → Set ℕ) (R : Kind → Machine σ → Machine σ → Prop) (fails : Bool)
    (P : Machine σ → ℕ × ℕ → Job → Prop) (Q : ℕ × ℕ → Entry → Prop) (F : Machine σ → ℕ → ℕ → Prop) : Prop where
  blockAdd : ∀ {start fin n M M'}, virtMemoryBlockAdd E v start fin M = .ok (n, M') →
    R (if n = 0 then .grow else .block n) M M'
  allocObject : ∀ {size o M M'}, virtMemoryAllocObject E v size M = (o, M') → R (if o = 0 then .grow else .object) M M'
  range : ∀ {b f t j n ps M M'}, Block live M b t → f ∈ t.a.inorder → P M (span M.mem f) j → IsSpan j.range ∧ Paged j.range →
    RangeMade E v b f j.start (mul64 j.nr 4096) (j.step E v) j.plan j.any n ps M M' →
    M'.obj n.o = ⟨ps, mul64 j.nr 4096, 1⟩ →
    R (.carve true (span M.mem f) ⟨j.start, mul64 j.nr 4096, n.o, 0, 2⟩) M M'
  failed : ∀ {b f j M M'}, P M (span M.mem f) j → IsSpan j.range ∧ Paged j.range →
    (j.start ≠ 0 → j.granted E v M = false) → j.run E v b f M = .ok (false, M') → R .same M M'
  entry : ∀ {b f e r x M M'}, Q (span M.mem f) x → IsSpan (x.start, x.size) ∧ Paged (x.start, x.size) →
    (r ≠ 0 ∨ fails = true) → EntryMade E v b f x e r M M' → R (.carve false (span M.mem f) x) M M'
  entryFailed : ∀ {b f x M M'}, Q (span M.mem f) x → fails = true →
    allocEntryIn E v b f x.object x.start x.size x.offset x.flags M = .ok (0, M') → R .same M M'
  freed : ∀ {b e M M'}, F M b e → freeEntry E v b e M = .ok M' → R (.free b e) M M'
  rangeZero : ∀ {a j M}, P M a j → (fails = true ∨ j.any = true) → ∀ r ∈ rest a j.range, r.1 ≠ 0
  entryZero : ∀ {a x}, Q a x → fails = true → ∀ r ∈ rest a (x.start, x.size), r.1 ≠ 0
  alone : ∀ {b e M}, F M b e → FreesAlone M b e
  /-- A block that gives no pointer leaves the condition for the others. -/
  stay : ∀ {b f j ok a j' M M'}, P M (span M.mem f) j → j.any = true → j.run E v b f M = .ok (ok, M') →
    (if ok then j.start = 0 else j.start ≠ 0 → j.granted E v M = false) → j'.wired = j.wired → P M a j' → P M' a j'

section Rules
variable {fails : Bool} {P : Machine σ → ℕ × ℕ → Job → Prop} {Q : ℕ × ℕ → Entry → Prop}
  {F : Machine σ → ℕ → ℕ → Prop} {Inv : St σ → (ℕ → Forest) → Prop}
  (X : Rules E v live R fails P Q F) (hE : Lawful E v live) (hTidy : ∀ {st T}, Inv st T → Tidy v live st T)
  (hkeep : ∀ {st T st' T'}, Inv st T → Change v live R st T st' T' → Inv st' T') (S : Inv st T) {M' : Machine σ}
include X hE hTidy hkeep S

theorem Rules.job {d : Made} {f : ℕ} {j : Job} {ok : Bool} (hd : d ∈ st.made) (hf : f ∈ (T d.b).a.inorder)
    (hP : P st.mach (span st.mach.mem f) j) (hj : IsSpan j.range ∧ Paged j.range)
    (hok : ok = true ∨ fails = true ∨ j.any = true) (h : j.run E v d.b f st.mach = .ok (ok, M')) :
    (∃ T', Inv ⟨M', st.made, st.objs⟩ T') ∧ (ok = false → j.start ≠ 0 → j.granted E v st.mach = false) ∧
      ∃ o, OneBlock v live st T d o M' ∧ Kept 24 [d.b] st.mach.mem M'.mem := by
  have I := (hTidy S).intact
  cases ok with
  | true =>
    obtain ⟨n, ps, hmade⟩ := allocRange_made h
    obtain ⟨t', hcarved, hback, hnew, hobj⟩ := rangeMade_backed hE (j.makesPage hE) I hd hf hmade
    have hown : if true then n.o ∉ live st.mach.env else n.o ∈ st.objs := hnew
    have hR := X.range (I.block hd) hf hP hj hmade hobj
    exact ⟨⟨_, hkeep S (.carve hd hf hcarved hback hown hR)⟩, fun hf => Bool.noConfusion hf, _,
      .carve hd hcarved hback, hcarved.head⟩
  | false =>
    have hwhole := (hTidy S).whole d hd f (List.mem_append_left _ hf)
    have hzero := X.rangeZero hP (hok.resolve_left (by decide))
    have hrest : ∀ r ∈ rest (span st.mach.mem f) j.range, 64 ∣ r.1 ∧ r.1 ≠ 0 := fun r hr =>
      ⟨Dvd.dvd.trans (by decide) (rest_paged hwhole.2 hj.2 hr).1, hzero r hr⟩
    have hsame := allocRange_false hE (j.makesPage hE) (I.block hd) hf hrest h
    have hno : j.start ≠ 0 → j.granted E v st.mach = false := by
      intro hstart
      have h64 : 64 ∣ j.start := Dvd.dvd.trans (by decide) hj.2.1
      by_contra hg
      exact Bool.noConfusion (j.done_of_granted hE (I.block hd) hf hrest ⟨h64, hstart⟩ (Bool.eq_true_of_not_eq_false hg) h)
    exact ⟨⟨_, hkeep S (.same hd hsame (X.failed hP hj hno h))⟩, fun _ => hno, _, .same hd hsame, hsame.head⟩

theorem Rules.given {b f : ℕ} {j : Job} {ok : Bool} (hfind : findFree v j.start st.mach.mem = .ok (some (b, f)))
    (hP : P st.mach (span st.mach.mem f) j) (hj : j.start < 2 ^ 64 ∧ 4096 ∣ j.start)
    (hok : ok = true ∨ fails = true) (h : j.run E v b f st.mach = .ok (ok, M')) :
    ∃ T', Inv ⟨M', st.made, st.objs⟩ T' := by
  obtain ⟨d, hd, rfl, hf⟩ := findFree_sound hE (hTidy S).intact hfind
  have hrange : IsSpan j.range ∧ Paged j.range := ⟨⟨hj.1, mul64_lt ..⟩, hj.2, dvd_mul64 _⟩
  exact (X.job hE hTidy hkeep S hd hf hP hrange (hok.imp id .inl) h).1

theorem Rules.eachBlock {call : ℕ → Machine σ → Except Stop (ℕ × Machine σ)} {nr p : ℕ} {job : ℕ → Job}
    (hcall : ∀ {b p M M'}, call b M = .ok (p, M') → InBlock E v b nr job p M M')
    (hjob : ∀ s, (job s).start = s ∧ (job s).nr = nr ∧ (job s).any = true ∧ (job s).wired = (job 0).wired)
    (hP : ∀ d ∈ st.made, ∀ f, searchFitSize d.b (searchSize nr) st.mach.mem = .ok (some f) →
      P st.mach (span st.mach.mem f) (job (alignStart nr (st.mach.mem f))))
    (h : Vmem.eachBlock call fuel (st.mach.mem (v + 8)) st.mach = .ok (p, M')) :
    ∃ T', Inv ⟨M', st.made, st.objs⟩ T' := by
  obtain ⟨bs, hbs, hmade⟩ := (hTidy S).intact.chain
  refine eachBlock_keeps Inv
    (fun d M => ∀ f, searchFitSize d.b (searchSize nr) M.mem = .ok (some f) →
      P M (span M.mem f) (job (alignStart nr (M.mem f))))
    (fun {d M1 T1 p1 M2} hd S1 hgood hone => ?_) hbs hmade (fun d hd _ => hP d hd) S h
  have I := (hTidy S1).intact
  rcases hcall hone with ⟨-, rfl⟩ | ⟨f, ok, hfind, hrun, hp⟩
  · exact ⟨⟨T1, S1⟩, fun _ _ => rfl, fun _ _ _ _ h => h⟩
  have hf := (searchFitSize_sound I hd hfind).1
  obtain ⟨hstart, hnr, hany, hwired⟩ := hjob (alignStart nr (M1.mem f))
  have hwhole := (hTidy S1).whole d hd f (List.mem_append_left _ hf)
  have hrange : IsSpan (job (alignStart nr (M1.mem f))).range ∧ Paged (job (alignStart nr (M1.mem f))).range := by
    obtain ⟨hlt, hdvd⟩ := alignStart_paged nr hwhole.1.1 hwhole.2.1
    rw [Job.range, hstart]
    exact ⟨⟨hlt, mul64_lt ..⟩, hdvd, dvd_mul64 _⟩
  obtain ⟨hinv, hno, o, hblock, hhead⟩ :=
    X.job hE hTidy hkeep S1 hd hf (hgood f hfind) hrange (.inr (.inr hany)) hrun
  refine ⟨hinv, hblock.next I hhead, fun hp0 d' hd' hne hgood' f' hf' => ?_⟩
  · obtain ⟨hfound, hspan⟩ := hblock.search I hd' hne hf'
    have hstart' : M2.mem f' = M1.mem f' := congrArg Prod.fst hspan
    rw [hspan, hstart']
    refine X.stay (hgood f hfind) hany hrun ?_ ((hjob _).2.2.2.trans hwired.symm) (hgood' f' hfound)
    cases ok with
    | true => exact hstart.trans (hp.symm.trans hp0)
    | false => exact hno rfl

theorem Rules.onObject {b f r : ℕ} {x : Entry} (hfind : findFree v x.start st.mach.mem = .ok (some (b, f)))
    (hQ : Q (span st.mach.mem f) x) (hx : IsSpan (x.start, x.size) ∧ Paged (x.start, x.size)) (ho : x.object ∈ st.objs)
    (hr : r ≠ 0 ∨ fails = true)
    (h : allocEntryIn E v b f x.object x.start x.size x.offset x.flags st.mach = .ok (r, M')) :
    ∃ T', Inv ⟨M', st.made, st.objs⟩ T' := by
  have I := (hTidy S).intact
  obtain ⟨d, hd, rfl, hf⟩ := findFree_sound hE I hfind
  have hwhole := (hTidy S).whole d hd f (List.mem_append_left _ hf)
  have hzero : r = 0 → ∀ p ∈ rest (span st.mach.mem f) (x.start, x.size), 64 ∣ p.1 ∧ p.1 ≠ 0 := by
    intro hr0 p hp
    have hfails := hr.resolve_left fun h => h hr0
    exact ⟨Dvd.dvd.trans (by decide) (rest_paged hwhole.2 hx.2 hp).1, X.entryZero hQ hfails p hp⟩
  rcases allocEntryIn_backed hE I hd hf ho hzero h with ⟨rfl, hsame⟩ | ⟨t', e, hcarved, hmade, hback⟩
  · exact ⟨_, hkeep S (.same hd hsame (X.entryFailed hQ (hr.resolve_left fun h => h rfl) h))⟩
  · have hown : if false then x.object ∉ live st.mach.env else x.object ∈ st.objs := ho
    exact ⟨_, hkeep S (.carve hd hf hcarved hback hown (X.entry hQ hx hr hmade))⟩

theorem Rules.freePages {addr b e : ℕ} (hF : F st.mach b e)
    (hfind : findStart v addr st.mach.mem = .ok (some (b, e))) (h : freeEntry E v b e st.mach = .ok M') :
    ∃ T', Inv ⟨M', st.made, st.objs.filter fun o => some o ≠ some (objectOf st.mach e)⟩ T' := by
  have I := (hTidy S).intact
  obtain ⟨hrefs, hzero⟩ := X.alone hF
  obtain ⟨d, hd, rfl, he, -⟩ := findStart_sound hE I hfind
  have hown : Owner.object (objectOf st.mach e) ∈ owners st T := object_owner ⟨d, hd, he⟩
  have hwhole := (hTidy S).whole d hd e (List.mem_append_right _ he)
  have hgone : ∀ p, Gone st.mach (objectOf st.mach e) p → p ∈ live st.mach.env ∧ p ≠ d.b ∧ p ∉ (T d.b).nodes := by
    intro p hp
    have hout := I.object_ne hown hd hp
    exact ⟨I.separate.inUse _ hown hp, fun h => hout (.inl h), fun h => hout (.inr h)⟩
  obtain ⟨t', hfreed⟩ := freeEntry_freed hE (I.block hd) he hgone (Dvd.dvd.trans (by decide) hwhole.2.1) hzero h
  exact ⟨_, hkeep S (.free hd he hrefs hfreed (X.freed hF h))⟩

/-- STEP: a call whose ranges, entries and frees are in the rules keeps what every change keeps. -/
theorem Rules.step {op : Op} {done : Bool} (hv : op.Valid st) (hmeets : op.Meets v st P Q F)
    (hdone : done = true ∨ fails = true) (h : op.run E v st = .ok (done, st')) : ∃ T', Inv st' T' := by
  have htrue : ∀ {n : ℕ}, decide (n ≠ 0) = done → n ≠ 0 ∨ fails = true := fun hn =>
    hdone.imp (fun hd => of_decide_eq_true (hn.trans hd)) id
  cases op with
  | blockAdd start fin =>
    obtain ⟨⟨n, M1⟩, hadd, h⟩ := returned h
    cases h
    have hR := X.blockAdd hadd
    rcases eq_or_ne n 0 with rfl | hn
    · exact ⟨_, hkeep S (.grow (virtMemoryBlockAdd_null hE hadd) hR)⟩
    · obtain ⟨fr, hadded⟩ := virtMemoryBlockAdd_added hE (hTidy S).intact hadd hn
      rw [if_neg hn] at hR
      rw [if_pos hn]
      exact ⟨_, hkeep S (.block hadded hR)⟩
  | allocObject size =>
    obtain ⟨⟨o, M1⟩, hcall⟩ : ∃ r, virtMemoryAllocObject E v size st.mach = r := ⟨_, rfl⟩
    simp only [Op.run, hcall] at h
    cases h
    have hR := X.allocObject hcall
    rcases eq_or_ne o 0 with rfl | ho
    · exact ⟨_, hkeep S (.grow (virtMemoryAllocObject_null hE hcall) hR)⟩
    · obtain ⟨htake, hobj⟩ := virtMemoryAllocObject_takes hE hcall ho
      rw [if_neg ho] at hR
      rw [if_pos ho]
      exact ⟨_, hkeep S (.object htake ⟨by rw [hobj], by rw [hobj]⟩ hR)⟩
  | allocEntry o addr size offset flags =>
    obtain ⟨⟨r, M1⟩, halloc, h⟩ := returned h
    obtain ⟨hr, rfl⟩ := Prod.mk.inj (Except.ok.inj h)
    rcases virtMemoryAllocEntry_cases halloc with ⟨-, rfl, -⟩ | ⟨b, f, ⟨⟨ha, hs, -⟩, hfind, -⟩, hin⟩
    · exact ⟨T, S⟩
    · exact X.onObject hE hTidy hkeep S hfind (hmeets b f hfind)
        ⟨⟨hv.2.1, hv.2.2.1⟩, ha, hs⟩ hv.1 (htrue hr) hin
  | allocPages nr zone domain =>
    obtain ⟨⟨p, M1⟩, halloc, h⟩ := returned h
    cases h
    exact X.eachBlock hE hTidy hkeep S allocPagesBlock_cases (fun _ => ⟨rfl, rfl, rfl, rfl⟩) hmeets halloc
  | allocPagesAddr virtual nr zone domain =>
    obtain ⟨⟨p, M1⟩, halloc, h⟩ := returned h
    obtain ⟨hp, rfl⟩ := Prod.mk.inj (Except.ok.inj h)
    rcases virtMemoryAllocPagesAddr_cases halloc with ⟨-, rfl, -⟩ | ⟨b, f, ok, ⟨ha, hfind, -⟩, hrun, rfl⟩
    · exact ⟨T, S⟩
    · refine X.given hE hTidy hkeep S (j := .addr virtual nr zone domain) hfind (hmeets b f hfind) ⟨hv.1, ha⟩
        ((htrue hp).imp (fun hne => ?_) id) hrun
      by_contra hok
      rw [if_neg hok] at hne
      exact hne rfl
  | wire virtual nr physical =>
    obtain ⟨⟨ret, M1⟩, halloc, h⟩ := returned h
    obtain ⟨hret, rfl⟩ := Prod.mk.inj (Except.ok.inj h)
    rcases virtMemoryWire_cases halloc with ⟨-, rfl⟩ | ⟨ha, b, f, ok, hfind, hrun, rfl⟩
    · exact ⟨T, S⟩
    · refine X.given hE hTidy hkeep S (j := .wire virtual nr physical) hfind (hmeets b f hfind) ⟨hv.1, ha⟩
        (hdone.imp (fun hd => ?_) id) hrun
      by_contra hok
      have hzero := of_decide_eq_true (hret.trans hd)
      rw [if_neg hok] at hzero
      exact absurd hzero (by decide)
  | wire2 physical nr =>
    obtain ⟨⟨p, M1⟩, halloc, h⟩ := returned h
    obtain ⟨-, rfl⟩ := Prod.mk.inj (Except.ok.inj h)
    exact X.eachBlock hE hTidy hkeep S allocVirtPagesWire_cases (fun _ => ⟨rfl, rfl, rfl, rfl⟩) hmeets halloc
  | freePages addr =>
    obtain ⟨found, hfind, h⟩ := returned h
    obtain ⟨M1, hfree, h⟩ := returned h
    cases h
    rw [virtMemoryFreePages] at hfree
    obtain ⟨found', hfind', hfree⟩ := returned hfree
    obtain rfl : found = found' := Except.ok.inj (hfind.symm.trans hfind')
    cases found with
    | none =>
      cases hfree
      refine ⟨T, ?_⟩
      simpa using S
    | some be => exact X.freePages hE hTidy hkeep S (hmeets be.1 be.2 hfind) hfind hfree

end Rules

end Advos.Space
