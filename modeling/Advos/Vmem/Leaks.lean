import Advos.Vmem.Ledger
import Advos.Vmem.Tally

/-! Where the nodes are.

    Every node that is out should be a block, a free interval, an entry, an object or a page:

        tally  =  blocks  +  free intervals  +  entries  +  objects  +  pages

    The calls keep the balance, but for one branch of the two that allocate at any address: when the
    range is at the start of the free interval and does not fill it, the second spare structure is not
    returned. -/

namespace Advos.Space
open Vmem SearchTree Word Function List

variable {σ : Type} {E : Env σ} {v : ℕ} {live : σ → Set ℕ} {st st' : St σ} {T T' : ℕ → Forest}

/-! ### Counting -/

def blocks (st : St σ) : Finset ℕ := (st.made.map Made.b).toFinset

/-- The objects that an entry refers to, or that were made for entries to come. -/
def objects (st : St σ) (T : ℕ → Forest) : Finset ℕ :=
  st.objs.toFinset ∪ (blocks st).biUnion fun b => ((T b).e.inorder.map (objectOf st.mach)).toFinset

/-- A block with its free intervals and its entries. -/
def Forest.count (t : Forest) : ℕ := 1 + t.a.inorder.length + t.e.inorder.length

/-- An object with its pages. -/
def objCount (M : Machine σ) (o : ℕ) : ℕ := 1 + (M.obj o).pages.length

def nodeCount (st : St σ) (T : ℕ → Forest) : ℕ :=
  ∑ b ∈ blocks st, Forest.count (T b) + ∑ o ∈ objects st T, objCount st.mach o

theorem mem_blocks {b : ℕ} : b ∈ blocks st ↔ ∃ d ∈ st.made, d.b = b := by
  simp [blocks]

theorem mem_objects {o : ℕ} : o ∈ objects st T ↔ Owner.object o ∈ owners st T := by
  simp only [objects, Finset.mem_union, mem_toFinset, Finset.mem_biUnion, mem_map, mem_blocks]
  constructor
  · rintro (ho | ⟨b, ⟨d, hd, rfl⟩, e, he, rfl⟩)
    · exact .inl ho
    · exact .inr ⟨e, ⟨d, hd, he⟩, rfl⟩
  · rintro (ho | ⟨e, ⟨d, hd, he⟩, rfl⟩)
    · exact .inl ho
    · exact .inr ⟨d.b, ⟨d, hd, rfl⟩, e, he, rfl⟩

theorem Quiet.sum_objects (q : Quiet st T st' T') :
    ∑ o ∈ objects st' T', objCount st'.mach o = ∑ o ∈ objects st T, objCount st.mach o := by
  refine Finset.sum_congr (Finset.ext fun o => ?_) fun o ho => ?_
  · rw [mem_objects, mem_objects, q.owner]
  · rw [objCount, objCount, q.obj (mem_objects.mp ho)]

/-! ### One block and one object -/

section One
variable {d : Made} {o : ℕ} {M' : Machine σ} {t' : Forest}

theorem sum_blocks_update (M' : Machine σ) (t' : Forest) (objs' : List ℕ) (hd : d ∈ st.made) :
    ∑ b ∈ blocks ⟨M', st.made, objs'⟩, Forest.count (update T d.b t' b) + Forest.count (T d.b) =
      ∑ b ∈ blocks st, Forest.count (T b) + Forest.count t' := by
  have hmem : d.b ∈ blocks st := mem_blocks.mpr ⟨d, hd, rfl⟩
  have hrest : ∑ b ∈ (blocks st).erase d.b, Forest.count (update T d.b t' b) =
      ∑ b ∈ (blocks st).erase d.b, Forest.count (T b) :=
    Finset.sum_congr rfl fun b hb => by rw [update_of_ne (Finset.ne_of_mem_erase hb)]
  have hb : blocks ⟨M', st.made, objs'⟩ = blocks st := rfl
  rw [hb, ← Finset.add_sum_erase _ _ hmem, ← Finset.add_sum_erase (blocks st) (fun b => Forest.count (T b)) hmem, hrest,
    update_self]
  omega

theorem sum_objects_erase (objs' : List ℕ) (I : Intact v live st T) (h : OneBlock v live st T d o M')
    (hnew : ∀ e ∈ t'.e.inorder, objectOf M' e ≠ o → e ∈ (T d.b).e.inorder ∧ objectOf M' e = objectOf st.mach e)
    (hold : ∀ e ∈ (T d.b).e.inorder, objectOf st.mach e ≠ o → e ∈ t'.e.inorder ∧ objectOf M' e = objectOf st.mach e)
    (hobjs : ∀ o' ≠ o, o' ∈ objs' ↔ o' ∈ st.objs) :
    ∑ o' ∈ (objects ⟨M', st.made, objs'⟩ (update T d.b t')).erase o, objCount M' o' =
      ∑ o' ∈ (objects st T).erase o, objCount st.mach o' := by
  refine Finset.sum_congr (Finset.ext fun o' => ?_) fun o' ho' => ?_
  · simp only [Finset.mem_erase, mem_objects]
    refine and_congr_right fun hne => ⟨fun ho' => ?_, fun ho' => ?_⟩
    · exact h.other_owner I hnew (fun o' ho' hne => (hobjs o' hne).mp ho') hne ho'
    · rcases ho' with ho' | ⟨e, ⟨d', hd', he⟩, rfl⟩
      · exact .inl ((hobjs o' hne).mpr ho')
      · rcases eq_or_ne d'.b d.b with heq | hb
        · obtain ⟨he', hobj⟩ := hold e (heq ▸ he) hne
          exact .inr ⟨e, ⟨d, h.made, by rwa [update_self]⟩, hobj⟩
        · refine .inr ⟨e, ⟨d', hd', by rwa [update_of_ne hb]⟩, ?_⟩
          exact ((h.other_block I hd' hb).2 e (.inr (mem_append_right _ he))).2 16 (by decide)
  · obtain ⟨hne, ho'⟩ := Finset.mem_erase.mp ho'
    rw [objCount, objCount, (h.other_object I (mem_objects.mp ho') hne).1]

end One

/-! ### Each change keeps the balance -/

/-- What a change does to the tally. -/
def Tallying (live : σ → Set ℕ) (w : σ → ℤ) : Kind → Machine σ → Machine σ → Prop
  | .carve own a x, M, M' => (IsSpan (x.start, x.size) ∧ Paged (x.start, x.size)) ∧ own = true ∧
    w M'.env = w M.env + objCount M' x.object + (rest a (x.start, x.size)).length
  | .free _ e, M, M' =>
    (w M'.env = w M.env - objCount M (objectOf M e) ∧
      ∀ p ∈ live M.env, ¬Gone M (objectOf M e) p → p ∈ live M'.env) ∨
    (w M'.env = w M.env - objCount M (objectOf M e) - 1 ∧ e ∉ live M'.env)
  | .object, M, M' => w M'.env = w M.env + 1
  | .block _, M, M' => w M'.env = w M.env + 2
  | _, M, M' => w M'.env = w M.env

/-- The nodes that are out are those of the space. -/
structure Balanced (v : ℕ) (live : σ → Set ℕ) (w : σ → ℤ) (st : St σ) (T : ℕ → Forest) : Prop where
  tidy : Tidy v live st T
  count : w st.mach.env = nodeCount st T

variable {w : σ → ℤ}

theorem Balanced.of (i j : ℕ) (S : Balanced v live w st T) (htidy : Tidy v live st' T')
    (hw : w st'.mach.env + j = w st.mach.env + i) (hn : nodeCount st' T' + j = nodeCount st T + i) :
    Balanced v live w st' T' := by
  have := S.count
  exact ⟨htidy, by omega⟩

theorem Balanced.object_inUse (S : Balanced v live w st T) {o : ℕ} (ho : o ∈ objects st T) : o ∈ live st.mach.env :=
  S.tidy.intact.object_inUse (mem_objects.mp ho)

theorem Balanced.keep {M' : Machine σ} (S : Balanced v live w st T) (htidy : Tidy v live ⟨M', st.made, st.objs⟩ T)
    (hw : w M'.env = w st.mach.env) (q : Quiet st T ⟨M', st.made, st.objs⟩ T) :
    Balanced v live w ⟨M', st.made, st.objs⟩ T := by
  refine S.of 0 0 htidy (by rw [hw]) ?_
  rw [nodeCount, q.sum_objects]
  rfl

section Changes
variable {d : Made} {M' : Machine σ} {t' : Forest}

namespace Balanced
variable (S : Balanced v live w st T)
include S

/-- A range with an object of its own: the object, its pages, and what is left over of `f`. -/
theorem carve {f e : ℕ} {x : Entry} (hd : d ∈ st.made) (hf : f ∈ (T d.b).a.inorder)
    (h : Carved v live d.b f (T d.b) t' e x st.mach M') (ho : Backed live st (T d.b) t' x.object M')
    (hown : x.object ∉ live st.mach.env) (htidy : Tidy v live ⟨M', st.made, st.objs⟩ (update T d.b t'))
    (hw : w M'.env = w st.mach.env + objCount M' x.object + (rest (span st.mach.mem f) (x.start, x.size)).length) :
    Balanced v live w ⟨M', st.made, st.objs⟩ (update T d.b t') := by
  have hx : objectOf M' e = x.object := congrArg Entry.object h.entry
  have hold : ∀ e' ∈ (T d.b).e.inorder, objectOf st.mach e' ≠ x.object →
      e' ∈ t'.e.inorder ∧ objectOf M' e' = objectOf st.mach e' := fun e' he' _ =>
    ⟨h.entries.mem_iff.mpr (mem_cons_of_mem _ he'), h.keptE e' he' 16 (by decide)⟩
  have hobjs := sum_objects_erase st.objs S.tidy.intact (.carve hd h ho)
    (fun e' he' hne => carved_entry h he' (.inl hne)) hold fun _ _ => Iff.rfl
  rw [Finset.erase_eq_of_notMem fun hmem => hown (S.object_inUse hmem)] at hobjs
  have hmem : x.object ∈ objects ⟨M', st.made, st.objs⟩ (update T d.b t') := by
    refine mem_objects.mpr (.inr ⟨e, ⟨d, hd, ?_⟩, hx⟩)
    rw [update_self]
    exact h.entries.mem_iff.mpr mem_cons_self
  have hsum : ∑ o ∈ objects ⟨M', st.made, st.objs⟩ (update T d.b t'), objCount M' o =
      objCount M' x.object + ∑ o ∈ objects st T, objCount st.mach o := by
    rw [← Finset.add_sum_erase _ _ hmem, hobjs]
  have hblocks := sum_blocks_update (T := T) M' t' st.objs hd
  have hcount : Forest.count t' = Forest.count (T d.b) + (rest (span st.mach.mem f) (x.start, x.size)).length := by
    obtain ⟨used, hpa, hspans, -⟩ := h.frees
    have ha := hpa.length_eq
    have he := h.entries.length_eq
    have hpos := length_pos_of_mem hf
    rw [length_append, length_erase_of_mem hf] at ha
    rw [length_cons] at he
    rw [← hspans, length_map, Forest.count, Forest.count]
    omega
  refine S.of (objCount M' x.object + (rest (span st.mach.mem f) (x.start, x.size)).length) 0 htidy
    (by rw [hw]; push_cast; ring) ?_
  rw [nodeCount, nodeCount, hsum]
  omega

/-- The object of the entry is gone with its pages, and the entry itself, unless it is a free interval now. -/
theorem free {e : ℕ} (hd : d ∈ st.made) (he : e ∈ (T d.b).e.inorder)
    (hrefs : (st.mach.obj (objectOf st.mach e)).refs < 2)
    (h : Freed v live d.b (T d.b) t' e (Gone st.mach (objectOf st.mach e)) st.mach M')
    (htidy : Tidy v live ⟨M', st.made, st.objs.filter fun o => some o ≠ some (objectOf st.mach e)⟩ (update T d.b t'))
    (hw : Tallying live w (.free d.b e) st.mach M') :
    Balanced v live w ⟨M', st.made, st.objs.filter fun o => some o ≠ some (objectOf st.mach e)⟩
      (update T d.b t') := by
  have I := S.tidy.intact
  have hmem : objectOf st.mach e ∈ objects st T := mem_objects.mpr (object_owner ⟨d, hd, he⟩)
  have hold : ∀ e' ∈ (T d.b).e.inorder, objectOf st.mach e' ≠ objectOf st.mach e →
      e' ∈ t'.e.inorder ∧ objectOf M' e' = objectOf st.mach e' := by
    intro e' he' hne
    have hmem := (mem_cons.mp (h.entries.mem_iff.mp he')).resolve_left fun heq => hne (heq ▸ rfl)
    exact ⟨hmem, (freed_entry h hmem).2⟩
  have hobjs := sum_objects_erase (st.objs.filter fun o => some o ≠ some (objectOf st.mach e)) I
    (.free hd he h) (fun e' he' _ => freed_entry h he') hold fun o hne => by simp [hne]
  rw [Finset.erase_eq_of_notMem fun hmem => I.object_freed hd he hrefs h (mem_objects.mp hmem)] at hobjs
  have hsum := Finset.add_sum_erase _ (objCount st.mach) hmem
  have hblocks := sum_blocks_update (T := T) M' t' (st.objs.filter fun o => some o ≠ some (objectOf st.mach e)) hd
  have hentries := h.entries.length_eq
  rw [length_cons] at hentries
  rw [Forest.count, Forest.count] at hblocks
  have heT : e ∉ (T d.b).a.inorder := fun hmem => by
    rcases (I.trees d hd).apartAE hmem he with h | h <;> omega
  have hstay : (∀ p ∈ live st.mach.env, ¬Gone st.mach (objectOf st.mach e) p → p ∈ live M'.env) → e ∈ live M'.env :=
    fun hlive => hlive e (I.entry_inUse ⟨d, hd, he⟩) fun hg =>
      I.object_ne (object_owner ⟨d, hd, he⟩) hd hg (.inr (mem_append_right _ he))
  -- whether the node of the entry was returned tells which of the two happened
  rcases h.frees with ⟨hpa, -⟩ | ⟨f, hf, hpa, -⟩
  · have heA : e ∈ t'.a.inorder := hpa.mem_iff.mpr mem_cons_self
    rcases hw with ⟨hw, -⟩ | ⟨-, hfreed⟩
    swap
    · exact absurd (h.home.nodes e (mem_append_left _ heA)) hfreed
    have ha := hpa.length_eq
    rw [length_cons] at ha
    refine S.of 0 (objCount st.mach (objectOf st.mach e)) htidy (by rw [hw]; push_cast; ring) ?_
    rw [nodeCount, nodeCount, hobjs]
    omega
  · have heA : e ∉ t'.a.inorder := by
      intro hmem
      rcases mem_cons.mp (hpa.mem_iff.mp hmem) with rfl | hmem
      · exact heT hf
      · exact heT (mem_of_mem_erase hmem)
    rcases hw with ⟨-, hlive⟩ | ⟨hw, -⟩
    · exact absurd (h.gone (hstay hlive)) heA
    have ha := hpa.length_eq
    have hpos := length_pos_of_mem hf
    rw [length_cons, length_erase_of_mem hf] at ha
    refine S.of 0 (objCount st.mach (objectOf st.mach e) + 1) htidy (by rw [hw]; push_cast; ring) ?_
    rw [nodeCount, nodeCount, hobjs]
    omega

theorem object {o : ℕ} (h : Takes v live st.mach [o] M') (hobj : (M'.obj o).pages = [])
    (htidy : Tidy v live ⟨M', st.made, o :: st.objs⟩ T) (hw : w M'.env = w st.mach.env + 1) :
    Balanced v live w ⟨M', st.made, o :: st.objs⟩ T := by
  have hnot : o ∉ objects st T := fun hmem => (h.new o (mem_singleton_self o)).1 (S.object_inUse hmem)
  have hset : objects ⟨M', st.made, o :: st.objs⟩ T = insert o (objects st T) := by
    ext o'
    rw [Finset.mem_insert, mem_objects, mem_objects]
    refine ⟨fun ho => or_iff_not_imp_left.mpr fun hne => (S.tidy.intact.added_object h hne ho).1, ?_⟩
    rintro (rfl | ho)
    · exact .inl mem_cons_self
    · exact old_owner ho (fun e he => ⟨he, (h.within.mem e (S.tidy.intact.entry_inUse he) id 16 (by decide)).symm⟩)
        (mem_cons_of_mem _)
  have hobjs : ∑ o' ∈ objects st T, objCount M' o' = ∑ o' ∈ objects st T, objCount st.mach o' :=
    Finset.sum_congr rfl fun o' ho' => by rw [objCount, objCount, h.within.obj o' (S.object_inUse ho') id]
  have hblocks : blocks ⟨M', st.made, o :: st.objs⟩ = blocks st := rfl
  refine S.of 1 0 htidy (by rw [hw]; push_cast; ring) ?_
  rw [nodeCount, nodeCount, hset, Finset.sum_insert hnot, hobjs, hblocks, objCount, hobj, length_nil]
  omega

theorem block {n fr start fin : ℕ} {a : ℕ × ℕ} (h : Added v live st n fr a M')
    (htidy : Tidy v live ⟨M', ⟨n, start, fin⟩ :: st.made, st.objs⟩ (update T n ⟨.node .nil fr .nil, .node .nil fr .nil, .nil⟩))
    (hw : w M'.env = w st.mach.env + 2) :
    Balanced v live w ⟨M', ⟨n, start, fin⟩ :: st.made, st.objs⟩
      (update T n ⟨.node .nil fr .nil, .node .nil fr .nil, .nil⟩) := by
  have I := S.tidy.intact
  have hne : ∀ d ∈ st.made, d.b ≠ n := by
    rintro d hd rfl
    exact h.new.1 (I.block hd).home.block
  have hnot : n ∉ blocks st := fun hmem => by
    obtain ⟨d, hd, heq⟩ := mem_blocks.mp hmem
    exact hne d hd heq
  have hset : blocks ⟨M', ⟨n, start, fin⟩ :: st.made, st.objs⟩ = insert n (blocks st) := by
    simp [blocks]
  have hblocks : ∑ b ∈ blocks st, Forest.count (update T n ⟨.node .nil fr .nil, .node .nil fr .nil, .nil⟩ b) =
      ∑ b ∈ blocks st, Forest.count (T b) := by
    refine Finset.sum_congr rfl fun b hb => ?_
    rw [update_of_ne]
    rintro rfl
    exact hnot hb
  have hnew : Forest.count ⟨.node .nil fr .nil, .node .nil fr .nil, .nil⟩ = 2 := by
    simp [Forest.count]
  refine S.of 2 0 htidy (by rw [hw]; push_cast; ring) ?_
  rw [nodeCount, nodeCount, (I.quiet_block h).sum_objects, hset, Finset.sum_insert hnot, hblocks, update_self, hnew]
  omega

end Balanced

end Changes

/-- KEPT: every change keeps the balance. -/
theorem Balanced.change (S : Balanced v live w st T) (h : Change v live (Tallying live w) st T st' T') :
    Balanced v live w st' T' := by
  have I := S.tidy.intact
  have htidy := h.tidy (fun hR => hR.1) S.tidy
  cases h with
  | grow h hR => exact S.keep htidy hR (I.quiet_grow h)
  | same hd h hR => exact S.keep htidy hR (I.quiet_same hd h)
  | carve hd hf h ho hown hR =>
    obtain ⟨-, rfl, hR⟩ := hR
    exact S.carve hd hf h ho hown htidy hR
  | free hd he hrefs h hR => exact S.free hd he hrefs h htidy hR
  | object h hobj hR => exact S.object h hobj.1 htidy hR
  | block h hR => exact S.block h htidy hR

/-! ### Calls that keep nothing back -/

/-- Nothing is left over at address 0, and no structure is kept that is not used. -/
def Tight (_ : Machine σ) (a : ℕ × ℕ) (j : Job) : Prop :=
  (∀ r ∈ rest a j.range, r.1 ≠ 0) ∧ keeps j.any a j.range = 0

theorem Job.countsPage (H : Counts E w fun _ => 1) (j : Job) : CountsPage w (fun _ => 1) (j.step E v) := by
  rw [Job.step]
  cases j.wired
  · exact H.allocPage v
  · exact H.wirePage v

/-- What freeing an entry returns: the object with its pages, and the node of the entry if it joins a
    free interval. -/
theorem freeEntry_tallying (hE : Lawful E v live) (H : Counts E w fun _ => 1) {b e : ℕ} {M M' : Machine σ}
    (h : freeEntry E v b e M = .ok M') : Tallying live w (.free b e) M M' := by
  obtain ⟨m, -, h⟩ := freeEntry_cases h
  have hw : w (freeNode E v (objectOf M e) (pagesFree E v (M.obj (objectOf M e)).pages M)).env =
      w M.env - objCount M (objectOf M e) := by
    rw [H.freeNode, H.pagesFree, pageNodes_one, objCount]
    push_cast
    ring
  have hlive : ∀ p ∈ live M.env, ¬Gone M (objectOf M e) p →
      p ∈ live (freeNode E v (objectOf M e) (pagesFree E v (M.obj (objectOf M e)).pages M)).env := by
    intro p hp hnot
    rw [freeNode_live hE, pagesFree_live hE]
    exact ⟨⟨hp, fun hmem => hnot (.inr hmem)⟩, fun heq => hnot (.inl heq)⟩
  obtain ⟨-, -, ⟨-, ret, m1, -, rfl⟩ | ⟨f, r, m1, m2, m3, -, -, -, -, rfl⟩⟩ := entryFree_cases h
  · exact .inl ⟨hw, hlive⟩
  · refine .inr ⟨?_, ?_⟩
    · dsimp only
      rw [H.freeNode]
      exact congrArg (· - 1) hw
    · dsimp only
      rw [freeNode_live hE]
      exact fun hmem => hmem.2 rfl

theorem tallying_rules (hE : Lawful E v live) (H : Counts E w fun _ => 1) :
    Rules E v live (Tallying live w) true Tight (fun _ _ => False) FreesAlone where
  blockAdd := by
    intro start fin n M M' h
    rcases H.blockAdd h with ⟨rfl, hw⟩ | ⟨fr, M1, halloc, hw⟩
    · exact hw
    · have hnode := (allocNode_spec hE halloc).new n (mem_singleton_self n)
      rw [if_neg (hE.node hnode.2).pos.ne']
      exact hw.trans (by ring)
  allocObject := by
    intro size o M M' h
    rcases H.allocObject h with ⟨rfl, hw⟩ | ⟨M1, halloc, hw⟩
    · exact hw
    · have hnode := (allocNode_spec hE halloc).new o (mem_singleton_self o)
      rw [if_neg (hE.node hnode.2).pos.ne']
      exact hw
  range := by
    intro b f t j n ps M M' B hf hP hj hmade hobj
    have hw := H.rangeMade hE (j.makesPage hE) (j.countsPage H) B hf hmade
    have hkeep : keeps j.any (span M.mem f) (j.start, mul64 j.nr 4096) = 0 := hP.2
    refine ⟨hj, rfl, ?_⟩
    rw [hw, hkeep, objCount, hobj]
    push_cast
    ring
  failed := by
    intro b f j M M' _ _ _ h
    exact H.rangeFailed (j.countsPage H) h
  entry hQ := hQ.elim
  entryFailed hQ := hQ.elim
  freed _ h := freeEntry_tallying hE H h
  rangeZero hP _ := hP.1
  entryZero hQ := hQ.elim
  alone := id
  stay _ _ _ _ _ hP := hP

/-- The range does not start where the interval `f` starts, or fills it; and nothing is left over at
    address 0. -/
def TightIn (M : Machine σ) (nr f : ℕ) : Prop :=
  (∀ r ∈ rest (span M.mem f) (alignStart nr (M.mem f), mul64 nr 4096), r.1 ≠ 0) ∧
    ¬(M.mem f = alignStart nr (M.mem f) ∧ M.mem (f + 8) ≠ mul64 nr 4096)

/-- The calls that keep nothing back. Entries on objects that are there are not made. -/
def Op.Tight (v : ℕ) (st : St σ) : Op → Prop
  | .blockAdd _ _ => True
  | .allocObject _ => True
  | .allocEntry _ _ _ _ _ => False
  | .allocPages nr _ _ => ∀ d ∈ st.made, ∀ f, searchFitSize d.b (searchSize nr) st.mach.mem = .ok (some f) →
    TightIn st.mach nr f
  | .allocPagesAddr virtual nr _ _ => OffZeroAt v st virtual (mul64 nr 4096)
  | .wire virtual nr _ => OffZeroAt v st virtual (mul64 nr 4096)
  | .wire2 _ nr => ∀ d ∈ st.made, ∀ f, searchFitSize d.b (searchSize nr) st.mach.mem = .ok (some f) →
    TightIn st.mach nr f
  | .freePages addr => ∀ b e, findStart v addr st.mach.mem = .ok (some (b, e)) → FreesAlone st.mach b e

theorem keeps_false (a b : ℕ × ℕ) : keeps false a b = 0 := by
  simp [keeps]

theorem TightIn.keeps_eq {M : Machine σ} {nr f : ℕ} (h : TightIn M nr f) (any : Bool) :
    keeps any (span M.mem f) (alignStart nr (M.mem f), mul64 nr 4096) = 0 :=
  if_neg fun hk => h.2 hk.2

theorem Op.Tight.meets {op : Op} (h : op.Tight v st) : op.Meets v st Space.Tight (fun _ _ => False) FreesAlone := by
  cases op with
  | blockAdd => trivial
  | allocObject => trivial
  | allocEntry => exact h.elim
  | allocPages => exact fun d hd f hf => ⟨(h d hd f hf).1, (h d hd f hf).keeps_eq _⟩
  | allocPagesAddr => exact fun b f hf => ⟨h b f hf, keeps_false ..⟩
  | wire => exact fun b f hf => ⟨h b f hf, keeps_false ..⟩
  | wire2 => exact fun d hd f hf => ⟨(h d hd f hf).1, (h d hd f hf).keeps_eq _⟩
  | freePages => exact h

/-- From a space in balance, in every run of calls, successful or not, that keep nothing back, the nodes
    that are out are the blocks, free intervals, entries, objects and pages. -/
theorem nodes_balanced {st₀ st : St (σ × ℤ)} {T₀ : ℕ → Forest} (hE : Lawful E v live)
    (hS : Tidy v (fun s : σ × ℤ => live s.1) st₀ T₀) (hN : st₀.mach.env.2 = nodeCount st₀ T₀)
    (h : Relation.ReflTransGen (Call (tallied E fun _ => (1 : ℤ)) v fun st op => op.Tight v st) st₀ st) :
    ∃ T, Tidy v (fun s : σ × ℤ => live s.1) st T ∧ st.mach.env.2 = nodeCount st T := by
  have hL := tallied_lawful hE fun _ => (1 : ℤ)
  have hC := tallied_counts E fun _ => (1 : ℤ)
  obtain ⟨T, S⟩ : ∃ T, Balanced v (fun s : σ × ℤ => live s.1) Prod.snd st T := by
    refine Run.invariant (P := fun st => ∃ T, Balanced v (fun s : σ × ℤ => live s.1) Prod.snd st T) h ⟨T₀, hS, hN⟩ ?_
    rintro st st' ⟨T, S⟩ ⟨op, done, hv, htight, hrun⟩
    exact (tallying_rules hL hC).step hL Balanced.tidy Balanced.change S hv htight.meets (.inr rfl) hrun
  exact ⟨T, S.tidy, S.count⟩

/-! ### Runs -/

/-- The machine before the first call, with nothing out. -/
def unused : Machine (Supply × ℤ) := ⟨fun _ => 0, fun _ => ⟨[], 0, 0⟩, ⟨[], 0, 0⟩, 0⟩

/-- A page is allocated at an address and freed again: a block and one free interval are left. -/
theorem nodes_balanced_one_page : ∃ st T,
    Relation.ReflTransGen (Call (tallied supply fun _ => (1 : ℤ)) 0x1000 fun st op => op.Tight 0x1000 st)
      ⟨unused, [], []⟩ st ∧ st.mach.env.2 = 2 ∧ st.mach.env.2 = nodeCount st T := by
  let E := tallied supply fun _ => (1 : ℤ)
  let st₁ := after E ⟨unused, [], []⟩ (.blockAdd 0x10000000 0x1fffffff)
  let st₂ := after E st₁ (.allocPagesAddr 0x10000000 1 1 0)
  let st₃ := after E st₂ (.freePages 0x10000000)
  have hfind₁ : findFree 0x1000 0x10000000 st₁.mach.mem = .ok (some (0x10000, 0x10040)) := by decide +kernel
  have hfind₂ : findStart 0x1000 0x10000000 st₂.mach.mem = .ok (some (0x10000, 0x10080)) := by decide +kernel
  have h₁ : Call E 0x1000 (fun st op => op.Tight 0x1000 st) ⟨unused, [], []⟩ st₁ :=
    call_after true ⟨by decide, by decide⟩ trivial (by decide +kernel)
  have h₂ : Call E 0x1000 (fun st op => op.Tight 0x1000 st) st₁ st₂ := by
    refine call_after true ⟨by decide, by decide⟩ (fun b f h => ?_) (by decide +kernel)
    obtain ⟨rfl, rfl⟩ := Prod.mk.inj (Option.some.inj (Except.ok.inj (hfind₁.symm.trans h)))
    decide +kernel
  have h₃ : Call E 0x1000 (fun st op => op.Tight 0x1000 st) st₂ st₃ := by
    refine call_after true (by decide : 0x10000000 < 2 ^ 64) (fun b e h => ?_) (by decide +kernel)
    obtain ⟨rfl, rfl⟩ := Prod.mk.inj (Option.some.inj (Except.ok.inj (hfind₂.symm.trans h)))
    exact ⟨by decide +kernel, .inl (by decide +kernel)⟩
  have hrun := ((Relation.ReflTransGen.single h₁).tail h₂).tail h₃
  obtain ⟨T, -, hT⟩ := nodes_balanced supply_lawful (Tidy.init (M := unused) rfl) (by decide) hrun
  exact ⟨st₃, T, hrun, by decide +kernel, hT⟩

theorem trees_single {b f e : ℕ} {m : Mem} (hroots : m (b + 24) = e + 40 ∧ m (b + 32) = f + 16 ∧ m (b + 40) = f + 40)
    (hf : m (f + 16) = 0 ∧ m (f + 24) = 0 ∧ m (f + 32) = f ∧ m (f + 40) = 0 ∧ m (f + 48) = 0 ∧ m (f + 56) = f)
    (he : m (e + 40) = 0 ∧ m (e + 48) = 0 ∧ m (e + 56) = e) (h0 : 0 < f ∧ f < 2 ^ 64 ∧ 0 < e ∧ e < 2 ^ 64)
    (hfe : Apart 64 f e) (hfb : Apart 64 f b) (heb : Apart 64 e b) :
    Trees b m (.node .nil f .nil) (.node .nil f .nil) (.node .nil e .nil) where
  atree := ⟨hroots.2.1, h0.1.ne', hf.1, hf.2.1⟩
  stree := ⟨hroots.2.2, h0.1.ne', hf.2.2.2.1, hf.2.2.2.2.1⟩
  entries := ⟨hroots.1, h0.2.2.1.ne', he.1, he.2.1⟩
  same := .refl _
  dataA := by simpa [Data] using hf.2.2.1
  dataS := by simpa [Data] using hf.2.2.2.2.2
  dataE := by simpa [Data] using he.2.2
  apart := by simpa using hfe
  block := by simp [hfb, heb]
  below := by simpa using ⟨⟨h0.1, h0.2.1⟩, h0.2.2⟩

/-- One page is allocated at any address: six nodes are out, for a block, a free interval, an entry, an
    object and a page. -/
theorem spare_interval_lost : ∃ st T,
    Relation.ReflTransGen (Call (tallied supply fun _ => (1 : ℤ)) 0x1000 fun _ _ => True) ⟨unused, [], []⟩ st ∧
    (∀ d ∈ st.made, Trees d.b st.mach.mem (T d.b).a (T d.b).s (T d.b).e) ∧
    st.mach.env.2 = 6 ∧ nodeCount st T = 5 := by
  let E := tallied supply fun _ => (1 : ℤ)
  let st₁ := after E ⟨unused, [], []⟩ (.blockAdd 0x10000000 0x1fffffff)
  let st₂ := after E st₁ (.allocPages 1 1 0)
  have h₁ : Call E 0x1000 (fun _ _ => True) ⟨unused, [], []⟩ st₁ :=
    call_after true ⟨by decide, by decide⟩ trivial (by decide +kernel)
  have h₂ : Call E 0x1000 (fun _ _ => True) st₁ st₂ :=
    call_after true (by decide : 1 < 2 ^ 64) trivial (by decide +kernel)
  have hmade : st₂.made = [⟨0x10000, 0x10000000, 0x1fffffff⟩] := by decide +kernel
  refine ⟨st₂, fun _ => ⟨.node .nil 0x10100 .nil, .node .nil 0x10100 .nil, .node .nil 0x10080 .nil⟩,
    (Relation.ReflTransGen.single h₁).tail h₂, fun d hd => ?_, by decide +kernel, by decide +kernel⟩
  rw [hmade] at hd
  obtain rfl := List.mem_singleton.mp hd
  exact trees_single (by decide +kernel) (by decide +kernel) (by decide +kernel) (by decide) (.inr (by decide))
    (.inr (by decide)) (.inr (by decide))

end Advos.Space
