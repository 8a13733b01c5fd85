import Advos.Schemes.Owned
import Advos.Vmem.Release
import Advos.Vmem.Space

/-! What stays true of the structures of an address space.

    Every node in use has one owner: a block, with its free intervals and entries, or an object, with
    its pages. The operations change one block and one object at a time, by six kinds of change; each
    of them keeps the trees of all blocks in order and the owners apart. -/

namespace Advos.Space
open Vmem SearchTree Owned Function List

variable {σ : Type}

inductive Owner
  | block (b : ℕ)
  | object (o : ℕ)

/-- The entries of the space. -/
def IsEntry (st : St σ) (T : ℕ → Forest) (e : ℕ) : Prop := ∃ d ∈ st.made, e ∈ (T d.b).e.inorder

/-- The object of an entry. -/
def objectOf (M : Machine σ) (e : ℕ) : ℕ := M.mem (e + 16)

def owners (st : St σ) (T : ℕ → Forest) : Set Owner
  | .block b => ∃ d ∈ st.made, d.b = b
  | .object o => o ∈ st.objs ∨ ∃ e, IsEntry st T e ∧ objectOf st.mach e = o

def foot (M : Machine σ) (T : ℕ → Forest) : Owner → Set ℕ
  | .block b => {p | p = b ∨ p ∈ (T b).nodes}
  | .object o => {p | Gone M o p}

structure Intact (v : ℕ) (live : σ → Set ℕ) (st : St σ) (T : ℕ → Forest) : Prop where
  chain : ∃ bs, Linked.Chain (nextBlock st.mach.mem) (ptr (st.mach.mem (v + 8))) bs ∧
    ∀ b ∈ bs, ∃ d ∈ st.made, d.b = b
  trees : ∀ d ∈ st.made, Trees d.b st.mach.mem (T d.b).a (T d.b).s (T d.b).e
  separate : Separate (live st.mach.env) (owners st T) (foot st.mach T)
  known : ∀ o ∈ st.objs, 0 ≤ (st.mach.obj o).refs
  counted : ∀ e, IsEntry st T e → 1 ≤ (st.mach.obj (objectOf st.mach e)).refs
  shared : ∀ e e', IsEntry st T e → IsEntry st T e' → e ≠ e' → objectOf st.mach e = objectOf st.mach e' →
    2 ≤ (st.mach.obj (objectOf st.mach e)).refs

/-- What the object of a new entry is after the change: a new one, or one with a reference more. -/
structure Backed (live : σ → Set ℕ) (st : St σ) (t t' : Forest) (o : ℕ) (M' : Machine σ) : Prop where
  inUse : o ∈ live M'.env
  apart : o ∉ t'.nodes
  refs : o ∉ live st.mach.env ∧ (M'.obj o).refs = 1 ∨
    o ∈ st.objs ∧ (M'.obj o).refs = (st.mach.obj o).refs + 1
  pages : ∀ p ∈ (M'.obj o).pages, p.addr ∈ live M'.env ∧ p.addr ∉ t'.nodes ∧
    (p.addr ∈ live st.mach.env → p.addr ∈ t.nodes ∨ o ∈ st.objs ∧ Gone st.mach o p.addr)

/-- A new block at `n` with the free interval `fr` is linked into the list. -/
structure Added (v : ℕ) (live : σ → Set ℕ) (st : St σ) (n fr : ℕ) (span₀ : ℕ × ℕ) (M' : Machine σ) : Prop where
  new : n ∉ live st.mach.env ∧ n ∈ live M'.env
  newFree : fr ∉ live st.mach.env ∧ fr ∈ live M'.env
  trees : Trees n M'.mem (.node .nil fr .nil) (.node .nil fr .nil) .nil
  span_eq : span M'.mem fr = span₀
  chain : ∃ bs, Linked.Chain (nextBlock M'.mem) (ptr (M'.mem (v + 8))) bs ∧
    ∀ b ∈ bs, b = n ∨ ∃ d ∈ st.made, d.b = b
  inUse : ∀ p ∈ live st.mach.env, p ∈ live M'.env ∧ M'.obj p = st.mach.obj p
  nodes : ∀ p ∈ live st.mach.env, (∀ d ∈ st.made, p ≠ d.b) → ∀ i < 64, M'.mem (p + i) = st.mach.mem (p + i)
  blocks : ∀ d ∈ st.made, ∀ i < 64, i ≠ 16 → M'.mem (d.b + i) = st.mach.mem (d.b + i)

/-- The kinds of change. A range is carved out of a free interval, given by start and size, for an
    entry with a new object of its `own` or with one that is there. -/
inductive Kind
  | grow
  | same
  | carve (own : Bool) (f : ℕ × ℕ) (x : Entry)
  | free (b e : ℕ)
  | object
  | block (b : ℕ)

/-- The changes that the calls are made of. `R` is what else is known of a change. -/
inductive Change (v : ℕ) (live : σ → Set ℕ) (R : Kind → Machine σ → Machine σ → Prop) :
    St σ → (ℕ → Forest) → St σ → (ℕ → Forest) → Prop
  | grow {st T M'} (h : Grows v live st.mach M') (hR : R .grow st.mach M') :
    Change v live R st T ⟨M', st.made, st.objs⟩ T
  | same {st T d M'} (hd : d ∈ st.made) (h : Same v live d.b (T d.b) st.mach M') (hR : R .same st.mach M') :
    Change v live R st T ⟨M', st.made, st.objs⟩ T
  | carve {st T d f t' e x own M'} (hd : d ∈ st.made) (hf : f ∈ (T d.b).a.inorder)
    (h : Carved v live d.b f (T d.b) t' e x st.mach M') (ho : Backed live st (T d.b) t' x.object M')
    (hown : if own then x.object ∉ live st.mach.env else x.object ∈ st.objs)
    (hR : R (.carve own (span st.mach.mem f) x) st.mach M') :
    Change v live R st T ⟨M', st.made, st.objs⟩ (Function.update T d.b t')
  | free {st T d e t' M'} (hd : d ∈ st.made) (he : e ∈ (T d.b).e.inorder)
    (hrefs : (st.mach.obj (objectOf st.mach e)).refs < 2)
    (h : Freed v live d.b (T d.b) t' e (Gone st.mach (objectOf st.mach e)) st.mach M')
    (hR : R (.free d.b e) st.mach M') :
    Change v live R st T
      ⟨M', st.made, st.objs.filter fun o => some o ≠ some (objectOf st.mach e)⟩ (Function.update T d.b t')
  | object {st T o M'} (h : Takes v live st.mach [o] M')
    (hobj : (M'.obj o).pages = [] ∧ (M'.obj o).refs = 0) (hR : R .object st.mach M') :
    Change v live R st T ⟨M', st.made, o :: st.objs⟩ T
  | block {st T n fr start fin M'} (h : Added v live st n fr (firstFree start fin) M')
    (hR : R (.block n) st.mach M') :
    Change v live R st T ⟨M', ⟨n, start, fin⟩ :: st.made, st.objs⟩
      (Function.update T n ⟨.node .nil fr .nil, .node .nil fr .nil, .nil⟩)

section
variable {v : ℕ} {live : σ → Set ℕ} {st st' : St σ} {T T' : ℕ → Forest} {R : Kind → Machine σ → Machine σ → Prop}

theorem Change.mono {R' : Kind → Machine σ → Machine σ → Prop} (hR : ∀ {k M M'}, R k M M' → R' k M M')
    (h : Change v live R st T st' T') : Change v live R' st T st' T' := by
  cases h with
  | grow h h' => exact .grow h (hR h')
  | same hd h h' => exact .same hd h (hR h')
  | carve hd hf h ho hown h' => exact .carve hd hf h ho hown (hR h')
  | free hd he hrefs h h' => exact .free hd he hrefs h (hR h')
  | object h hobj h' => exact .object h hobj (hR h')
  | block h h' => exact .block h (hR h')

variable {e : ℕ}

theorem object_owner (he : IsEntry st T e) : Owner.object (objectOf st.mach e) ∈ owners st T :=
  .inr ⟨e, he, rfl⟩

variable {d : Made}

theorem block_owner (hd : d ∈ st.made) : Owner.block d.b ∈ owners st T := ⟨d, hd, rfl⟩

namespace Intact
variable (I : Intact v live st T)
include I

theorem block {d : Made} (hd : d ∈ st.made) : Block live st.mach d.b (T d.b) := by
  have hin := I.separate.inUse (.block d.b) ⟨d, hd, rfl⟩
  exact ⟨I.trees d hd, hin (.inl rfl), fun s hs => hin (.inr hs)⟩

theorem entry_inUse {e : ℕ} (he : IsEntry st T e) : e ∈ live st.mach.env := by
  obtain ⟨d, hd, he⟩ := he
  exact (I.block hd).home.nodes e (mem_append_right _ he)

theorem block_ne {d d' : Made} (hd : d ∈ st.made) (hd' : d' ∈ st.made) (hne : d'.b ≠ d.b) {p : ℕ}
    (hp : p = d'.b ∨ p ∈ (T d'.b).nodes) : ¬(p = d.b ∨ p ∈ (T d.b).nodes) := fun h =>
  I.separate.ne (block_owner hd') (block_owner hd) (fun heq => hne (Owner.block.inj heq)) hp h rfl

theorem not_block {d d' : Made} (hd : d ∈ st.made) (hd' : d' ∈ st.made) {s : ℕ} (hs : s ∈ (T d.b).nodes) :
    s ≠ d'.b := by
  rintro rfl
  rcases eq_or_ne d'.b d.b with heq | hb
  · exact (I.trees d hd).ne_block hs heq
  · exact I.block_ne hd hd' hb (.inl rfl) (.inr hs)

theorem object_ne {o : ℕ} (ho : Owner.object o ∈ owners st T) {d : Made} (hd : d ∈ st.made) {p : ℕ}
    (hp : Gone st.mach o p) : ¬(p = d.b ∨ p ∈ (T d.b).nodes) := fun h =>
  I.separate.ne ho (block_owner hd) (fun heq => by cases heq) hp h rfl

theorem spare_object {o : ℕ} (ho : Owner.object o ∈ owners st T) {d : Made} (hd : d ∈ st.made) :
    Spare live st.mach d.b (T d.b).nodes o :=
  ⟨I.separate.inUse _ ho (.inl rfl), fun h => I.object_ne ho hd (.inl rfl) (.inl h),
    fun h => I.object_ne ho hd (.inl rfl) (.inr h)⟩

end Intact

/-- One block and one object are touched. -/
structure OneBlock (v : ℕ) (live : σ → Set ℕ) (st : St σ) (T : ℕ → Forest) (d : Made) (o : ℕ)
    (M' : Machine σ) : Prop where
  made : d ∈ st.made
  within : ∃ Q : ℕ → Prop, Within v live (fun p => p = d.b ∨ p ∈ (T d.b).nodes ∨ Q p) st.mach M' ∧
    ∀ p ∈ live st.mach.env, Q p → Owner.object o ∈ owners st T ∧ Gone st.mach o p

namespace OneBlock
variable {d : Made} {o : ℕ} {M' : Machine σ} (I : Intact v live st T) (h : OneBlock v live st T d o M')
include I h

theorem other_block {d' : Made} (hd' : d' ∈ st.made) (hne : d'.b ≠ d.b) :
    Block live M' d'.b (T d'.b) ∧ ∀ p, p = d'.b ∨ p ∈ (T d'.b).nodes →
      p ∈ live M'.env ∧ ∀ i < 64, M'.mem (p + i) = st.mach.mem (p + i) := by
  obtain ⟨Q, hw, hQ⟩ := h.within
  have B := I.block hd'
  have hout : ∀ p, p = d'.b ∨ p ∈ (T d'.b).nodes → p ∈ live st.mach.env ∧
      ¬(p = d.b ∨ p ∈ (T d.b).nodes ∨ Q p) := by
    intro p hp
    have hlive : p ∈ live st.mach.env := I.separate.inUse _ (block_owner hd') hp
    refine ⟨hlive, ?_⟩
    rintro (hq | hq | hq)
    · exact I.block_ne h.made hd' hne hp (.inl hq)
    · exact I.block_ne h.made hd' hne hp (.inr hq)
    · obtain ⟨hown, hgone⟩ := hQ p hlive hq
      exact I.object_ne hown hd' hgone hp
  refine ⟨B.within hw (hout _ (.inl rfl)).2 fun s hs => (hout s (.inr hs)).2, fun p hp => ?_⟩
  exact ⟨hw.inUse p (hout p hp).1 (hout p hp).2, hw.mem p (hout p hp).1 (hout p hp).2⟩

theorem other_object {o' : ℕ} (ho' : Owner.object o' ∈ owners st T) (hne : o' ≠ o) :
    M'.obj o' = st.mach.obj o' ∧ ∀ p, Gone st.mach o' p → p ∈ live M'.env := by
  obtain ⟨Q, hw, hQ⟩ := h.within
  have hout : ∀ p, Gone st.mach o' p → p ∈ live st.mach.env ∧ ¬(p = d.b ∨ p ∈ (T d.b).nodes ∨ Q p) := by
    intro p hp
    have hlive : p ∈ live st.mach.env := I.separate.inUse _ ho' hp
    refine ⟨hlive, ?_⟩
    rintro (hq | hq | hq)
    · exact I.object_ne ho' h.made hp (.inl hq)
    · exact I.object_ne ho' h.made hp (.inr hq)
    · obtain ⟨hown, hgone⟩ := hQ p hlive hq
      exact I.separate.ne ho' hown (fun heq => hne (Owner.object.inj heq)) hp hgone rfl
  exact ⟨hw.obj o' (hout o' (.inl rfl)).1 (hout o' (.inl rfl)).2,
    fun p hp => hw.inUse p (hout p hp).1 (hout p hp).2⟩

/-- An entry of the space is in the block that is touched, or it was there before. -/
theorem entry_cases {t' : Forest} {objs' : List ℕ} {e : ℕ} (he : IsEntry ⟨M', st.made, objs'⟩ (update T d.b t') e) :
    e ∈ t'.e.inorder ∨
      (∃ d' ∈ st.made, d'.b ≠ d.b ∧ e ∈ (T d'.b).e.inorder) ∧ objectOf M' e = objectOf st.mach e := by
  obtain ⟨d', hd', he⟩ := he
  rcases eq_or_ne d'.b d.b with heq | hb
  · rw [heq, update_self] at he
    exact .inl he
  · rw [update_of_ne hb] at he
    refine .inr ⟨⟨d', hd', hb, he⟩, ?_⟩
    exact ((h.other_block I hd' hb).2 e (.inr (mem_append_right _ he))).2 16 (by decide)

theorem entry_kept (hk : Kept 40 (T d.b).e.inorder st.mach.mem M'.mem) {e : ℕ} (he : IsEntry st T e) :
    ∀ i < 40, M'.mem (e + i) = st.mach.mem (e + i) := by
  obtain ⟨d', hd', he⟩ := he
  rcases eq_or_ne d'.b d.b with heq | hne
  · exact hk e (heq ▸ he)
  · exact fun i hi => ((h.other_block I hd' hne).2 e (.inr (mem_append_right _ he))).2 i (by omega)

variable {t' : Forest} {objs' : List ℕ}
  (hentry : ∀ e ∈ t'.e.inorder, objectOf M' e ≠ o → e ∈ (T d.b).e.inorder ∧ objectOf M' e = objectOf st.mach e)

include hentry in
/-- An entry whose object is another one was there before. -/
theorem other_entry {e : ℕ} (he : IsEntry ⟨M', st.made, objs'⟩ (update T d.b t') e)
    (hne : objectOf M' e ≠ o) : IsEntry st T e ∧ objectOf M' e = objectOf st.mach e := by
  rcases h.entry_cases I he with he | ⟨⟨d', hd', -, he⟩, hobj⟩
  · obtain ⟨hmem, hobj⟩ := hentry e he hne
    exact ⟨⟨d, h.made, hmem⟩, hobj⟩
  · exact ⟨⟨d', hd', he⟩, hobj⟩

include hentry in
/-- Another object that the space has was there before. -/
theorem other_owner (hobjs : ∀ o' ∈ objs', o' ≠ o → o' ∈ st.objs) {o' : ℕ} (hne : o' ≠ o)
    (ho' : Owner.object o' ∈ owners ⟨M', st.made, objs'⟩ (update T d.b t')) :
    Owner.object o' ∈ owners st T := by
  rcases ho' with ho | ⟨e, he, rfl⟩
  · exact .inl (hobjs o' ho hne)
  · obtain ⟨he', heq⟩ := h.other_entry I hentry he hne
    exact .inr ⟨e, he', heq.symm⟩

omit I in
/-- Blocks are not moved: the list of blocks stays. -/
theorem chain (hnext : M'.mem (d.b + 16) = st.mach.mem (d.b + 16))
    (hc : ∃ bs, Linked.Chain (nextBlock st.mach.mem) (ptr (st.mach.mem (v + 8))) bs ∧
      ∀ b ∈ bs, ∃ d ∈ st.made, d.b = b)
    (hother : ∀ d' ∈ st.made, d'.b ≠ d.b → M'.mem (d'.b + 16) = st.mach.mem (d'.b + 16)) :
    ∃ bs, Linked.Chain (nextBlock M'.mem) (ptr (M'.mem (v + 8))) bs ∧ ∀ b ∈ bs, ∃ d ∈ st.made, d.b = b := by
  obtain ⟨Q, hw, -⟩ := h.within
  obtain ⟨bs, hbs, hmade⟩ := hc
  refine ⟨bs, ?_, hmade⟩
  rw [hw.space 8 (by decide)]
  refine hbs.congr fun b hb => ?_
  obtain ⟨d', hd', rfl⟩ := hmade b hb
  rw [nextBlock, nextBlock]
  rcases eq_or_ne d'.b d.b with heq | hne
  · rw [heq, hnext]
  · rw [hother d' hd' hne]

end OneBlock

/-! ### Each change keeps it -/

variable {o : ℕ}

theorem gone_congr {M M' : Machine σ} (h : M'.obj o = M.obj o) : Gone M' o = Gone M o := by
  funext p
  rw [Gone, Gone, h]

/-- What has to be known of the object that a change touches, if the space still has it. -/
structure Kempt (live : σ → Set ℕ) (st : St σ) (T : ℕ → Forest) (d : Made) (t' : Forest) (o : ℕ)
    (st' : St σ) (T' : ℕ → Forest) : Prop where
  nodes : ∀ p, Gone st'.mach o p → p ∈ live st'.mach.env ∧ p ≠ d.b ∧ p ∉ t'.nodes ∧
    (p ∈ live st.mach.env → p ∈ (T d.b).nodes ∨ Owner.object o ∈ owners st T ∧ Gone st.mach o p)
  known : o ∈ st'.objs → 0 ≤ (st'.mach.obj o).refs
  counted : ∀ e, IsEntry st' T' e → objectOf st'.mach e = o → 1 ≤ (st'.mach.obj o).refs
  shared : ∀ e e', IsEntry st' T' e → IsEntry st' T' e' → e ≠ e' → objectOf st'.mach e = o →
    objectOf st'.mach e' = o → 2 ≤ (st'.mach.obj o).refs

variable {M' : Machine σ} {t' : Forest}

/-- KEPT: a change of one block and one object. -/
theorem Intact.change (I : Intact v live st T) (h : OneBlock v live st T d o M') {objs' : List ℕ}
    (hhead : Kept 24 [d.b] st.mach.mem M'.mem) (htrees : Trees d.b M'.mem t'.a t'.s t'.e)
    (hhome : Home live M' d.b t'.nodes) (hnodes : ∀ s ∈ t'.nodes, s ∈ live st.mach.env → s ∈ (T d.b).nodes)
    (hobjs : ∀ o' ∈ objs', o' ≠ o → o' ∈ st.objs)
    (hentry : ∀ e ∈ t'.e.inorder, objectOf M' e ≠ o → e ∈ (T d.b).e.inorder ∧ objectOf M' e = objectOf st.mach e)
    (hO : Owner.object o ∈ owners ⟨M', st.made, objs'⟩ (update T d.b t') → Kempt live st T d t' o ⟨M', st.made, objs'⟩ (update T d.b t')) :
    Intact v live ⟨M', st.made, objs'⟩ (update T d.b t') := by
  have hother : ∀ d' ∈ st.made, d'.b ≠ d.b → ∀ i < 64, M'.mem (d'.b + i) = st.mach.mem (d'.b + i) :=
    fun d' hd' hne => ((h.other_block I hd' hne).2 d'.b (.inl rfl)).2
  have hent : ∀ e, IsEntry ⟨M', st.made, objs'⟩ (update T d.b t') e → objectOf M' e ≠ o →
      IsEntry st T e ∧ objectOf M' e = objectOf st.mach e := fun e he hne => h.other_entry I hentry he hne
  have hown : ∀ o', o' ≠ o → Owner.object o' ∈ owners ⟨M', st.made, objs'⟩ (update T d.b t') →
      Owner.object o' ∈ owners st T := fun o' hne ho' => h.other_owner I hentry hobjs hne ho'
  refine ⟨h.chain (hhead d.b (mem_singleton_self _) 16 (by decide)) I.chain
    fun d' hd' hne => hother d' hd' hne 16 (by decide), fun d' hd' => ?_, ?_, fun o' ho' => ?_,
    fun e he => ?_, fun e e' he he' hne heq => ?_⟩
  · rcases eq_or_ne d'.b d.b with heq | hb
    · rw [heq, update_self]
      exact htrees
    · rw [update_of_ne hb]
      exact (h.other_block I hd' hb).1.trees
  · have hblk : foot M' (update T d.b t') (.block d.b) = {p | p = d.b ∨ p ∈ t'.nodes} := by
      simp only [foot, update_self]
    have hdisj : Owner.object o ∈ owners ⟨M', st.made, objs'⟩ (update T d.b t') →
        Disjoint (foot M' (update T d.b t') (.block d.b)) (foot M' (update T d.b t') (.object o)) := by
      intro ho
      rw [hblk]
      refine Set.disjoint_left.mpr fun p hp hgone => ?_
      obtain ⟨-, hpb, hpt, -⟩ := (hO ho).nodes p hgone
      rcases hp with hp | hp
      · exact hpb hp
      · exact hpt hp
    refine I.separate.update (C := {.block d.b, .object o}) (fun x hx hxC => ?_) (fun x hx hxC => ?_)
      (fun x hx hxC => ?_) (fun x hx hxC p hp hlive => ?_) (fun x hx hxC y hy hyC hne => ?_)
    · cases x with
      | block b => exact hx
      | object o' => exact hown o' (fun heq => hxC (.inr (heq ▸ rfl))) hx
    · cases x with
      | block b =>
        obtain ⟨d', hd', rfl⟩ := hx
        have hb : d'.b ≠ d.b := fun heq => hxC (.inl (heq ▸ rfl))
        refine ⟨by simp only [foot, update_of_ne hb], fun p hp => ?_⟩
        exact ((h.other_block I hd' hb).2 p hp).1
      | object o' =>
        have hne : o' ≠ o := fun heq => hxC (.inr (heq ▸ rfl))
        obtain ⟨heq, hlive⟩ := h.other_object I (hown o' hne hx) hne
        exact ⟨by rw [foot, foot, gone_congr heq], hlive⟩
    · rcases hxC with rfl | hxC
      · rw [hblk]
        rintro p (rfl | hp)
        · exact hhome.block
        · exact hhome.nodes p hp
      · obtain rfl : x = .object o := hxC
        exact fun p hp => ((hO hx).nodes p hp).1
    · rcases hxC with rfl | hxC
      · rw [hblk] at hp
        refine ⟨.block d.b, block_owner h.made, .inl rfl, ?_⟩
        rcases hp with rfl | hp
        · exact .inl rfl
        · exact .inr (hnodes p hp hlive)
      · obtain rfl : x = .object o := hxC
        rcases ((hO hx).nodes p hp).2.2.2 hlive with hp' | ⟨hown', hp'⟩
        · exact ⟨.block d.b, block_owner h.made, .inl rfl, .inr hp'⟩
        · exact ⟨.object o, hown', .inr rfl, hp'⟩
    · rcases hxC with rfl | hxC <;> rcases hyC with rfl | hyC
      · exact absurd rfl hne
      · obtain rfl : y = .object o := hyC
        exact hdisj hy
      · obtain rfl : x = .object o := hxC
        exact (hdisj hx).symm
      · exact absurd (hxC.trans hyC.symm) hne
  · rcases eq_or_ne o' o with rfl | hne
    · exact (hO (.inl ho')).known ho'
    · have ho := hobjs o' ho' hne
      change 0 ≤ (M'.obj o').refs
      rw [(h.other_object I (.inl ho) hne).1]
      exact I.known o' ho
  · change 1 ≤ (M'.obj (objectOf M' e)).refs
    rcases eq_or_ne (objectOf M' e) o with ho | hne
    · rw [ho]
      exact (hO (.inr ⟨e, he, ho⟩)).counted e he ho
    · obtain ⟨he', hobj⟩ := hent e he hne
      rw [hobj] at hne ⊢
      rw [(h.other_object I (object_owner he') hne).1]
      exact I.counted e he'
  · change 2 ≤ (M'.obj (objectOf M' e)).refs
    change objectOf M' e = objectOf M' e' at heq
    rcases eq_or_ne (objectOf M' e) o with ho | hno
    · rw [ho]
      exact (hO (.inr ⟨e, he, ho⟩)).shared e e' he he' hne ho (heq ▸ ho)
    · obtain ⟨h1, hobj⟩ := hent e he hno
      obtain ⟨h1', hobj'⟩ := hent e' he' (heq ▸ hno)
      rw [hobj] at hno ⊢
      rw [(h.other_object I (object_owner h1) hno).1]
      exact I.shared e e' h1 h1' hne (hobj ▸ hobj' ▸ heq)

theorem OneBlock.same (hd : d ∈ st.made) (h : Same v live d.b (T d.b) st.mach M') :
    OneBlock v live st T d d.b M' :=
  ⟨hd, fun _ => False, h.within.mono fun _ _ hp => hp.imp id .inl, fun _ _ hf => hf.elim⟩

theorem Intact.same (I : Intact v live st T) (hd : d ∈ st.made) (h : Same v live d.b (T d.b) st.mach M') :
    Intact v live ⟨M', st.made, st.objs⟩ T := by
  have hone : OneBlock v live st T d d.b M' := .same hd h
  suffices hkept : Intact v live ⟨M', st.made, st.objs⟩ (update T d.b (T d.b)) by
    rwa [update_eq_self] at hkept
  refine I.change hone h.head h.trees h.home (fun s hs _ => hs) (fun o ho _ => ho)
    (fun e he _ => ⟨he, h.keptE e he 16 (by decide)⟩) fun ho => ?_
  -- the block is not an object
  exfalso
  rw [update_eq_self] at ho
  suffices hown : Owner.object d.b ∈ owners st T from I.object_ne hown hd (.inl rfl) (.inl rfl)
  rcases ho with ho | ⟨e, he, ho⟩
  · exact .inl ho
  · exact .inr ⟨e, he, (hone.entry_kept I h.keptE he 16 (by decide)).symm.trans ho⟩

/-- An object that was in use and gets an entry is one of the objects. -/
theorem Backed.known {t t' : Forest} (h : Backed live st t t' o M') (hlive : o ∈ live st.mach.env) :
    o ∈ st.objs :=
  h.refs.elim (fun hn => absurd hlive hn.1) And.left

theorem OneBlock.carve {f e : ℕ} {x : Entry} (hd : d ∈ st.made)
    (h : Carved v live d.b f (T d.b) t' e x st.mach M') (ho : Backed live st (T d.b) t' x.object M') :
    OneBlock v live st T d x.object M' := by
  refine ⟨hd, (· = x.object), h.within, ?_⟩
  rintro p hp rfl
  exact ⟨.inl (ho.known hp), .inl rfl⟩

theorem carved_entry {b f e : ℕ} {t t' : Forest} {x : Entry} {M M' : Machine σ} (h : Carved v live b f t t' e x M M')
    {e' : ℕ} (he' : e' ∈ t'.e.inorder) (hne : objectOf M' e' ≠ x.object ∨ e' ≠ e) :
    e' ∈ t.e.inorder ∧ objectOf M' e' = objectOf M e' := by
  have hx : objectOf M' e = x.object := congrArg Entry.object h.entry
  have hmem := (mem_cons.mp (h.entries.mem_iff.mp he')).resolve_left fun heq => hne.elim (fun hne => hne (heq ▸ hx)) (· heq)
  exact ⟨hmem, h.keptE e' hmem 16 (by decide)⟩

theorem Intact.carve {f e : ℕ} {x : Entry} (I : Intact v live st T) (hd : d ∈ st.made)
    (h : Carved v live d.b f (T d.b) t' e x st.mach M') (ho : Backed live st (T d.b) t' x.object M') :
    Intact v live ⟨M', st.made, st.objs⟩ (update T d.b t') := by
  have hB := I.block hd
  have hone : OneBlock v live st T d x.object M' := .carve hd h ho
  -- nodes of the object in use before are not the block
  have hnotb : ∀ p, (p ∈ live st.mach.env → p ∈ (T d.b).nodes ∨ x.object ∈ st.objs ∧ Gone st.mach x.object p) →
      p ≠ d.b := by
    rintro p hp rfl
    rcases hp hB.home.block with hmem | ⟨hobj, hgone⟩
    · exact hB.trees.ne_block hmem rfl
    · exact I.object_ne (.inl hobj) hd hgone (.inl rfl)
  refine I.change hone h.head h.trees h.home h.old (fun o' ho' _ => ho')
    (fun e' he' hne => carved_entry h he' (.inl hne)) fun _ => ?_
  refine ⟨fun p hp => ?_, fun hobj => ?_, fun e' _ _ => ?_, fun e1 e2 h₁ h₂ hne ho1 ho2 => ?_⟩
  · rcases hp with rfl | ⟨q, hq, rfl⟩
    · have hlive : ∀ h : x.object ∈ live st.mach.env, x.object ∈ (T d.b).nodes ∨
          x.object ∈ st.objs ∧ Gone st.mach x.object x.object := fun h => .inr ⟨ho.known h, .inl rfl⟩
      exact ⟨ho.inUse, hnotb _ hlive, ho.apart, fun h => .inr ⟨.inl (ho.known h), .inl rfl⟩⟩
    · obtain ⟨h1, h2, h3⟩ := ho.pages q hq
      exact ⟨h1, hnotb _ h3, h2, fun h => (h3 h).imp id fun h => ⟨.inl h.1, h.2⟩⟩
  · change 0 ≤ (M'.obj x.object).refs
    rcases ho.refs with ⟨-, hrefs⟩ | ⟨-, hrefs⟩
    · omega
    · have := I.known _ hobj
      omega
  · change 1 ≤ (M'.obj x.object).refs
    rcases ho.refs with ⟨-, hrefs⟩ | ⟨hobj, hrefs⟩
    · omega
    · have := I.known _ hobj
      omega
  · -- one of the two was there before, and counted
    have hone' : ∀ e1, IsEntry ⟨M', st.made, st.objs⟩ (update T d.b t') e1 → e1 ≠ e →
        objectOf M' e1 = x.object → 2 ≤ (M'.obj x.object).refs := by
      intro e1 he1 hne1 hobj1
      have hpre : IsEntry st T e1 ∧ objectOf st.mach e1 = x.object := by
        rcases hone.entry_cases I he1 with he1 | ⟨⟨d', hd', -, he1⟩, hsame⟩
        · obtain ⟨hmem, hsame⟩ := carved_entry h he1 (.inr hne1)
          exact ⟨⟨d, hd, hmem⟩, hsame ▸ hobj1⟩
        · exact ⟨⟨d', hd', he1⟩, hsame ▸ hobj1⟩
      have hlive : x.object ∈ live st.mach.env :=
        hpre.2 ▸ I.separate.inUse _ (object_owner hpre.1) (.inl rfl)
      have hcount := I.counted e1 hpre.1
      rw [hpre.2] at hcount
      rcases ho.refs with ⟨hnew, -⟩ | ⟨-, hrefs⟩
      · exact absurd hlive hnew
      · omega
    rcases eq_or_ne e1 e with rfl | hne1
    · exact hone' e2 h₂ hne.symm ho2
    · exact hone' e1 h₁ hne1 ho1

theorem OneBlock.free (hd : d ∈ st.made) (he : e ∈ (T d.b).e.inorder)
    (h : Freed v live d.b (T d.b) t' e (Gone st.mach (objectOf st.mach e)) st.mach M') :
    OneBlock v live st T d (objectOf st.mach e) M' :=
  ⟨hd, _, h.within, fun _ _ hp => ⟨object_owner ⟨d, hd, he⟩, hp⟩⟩

theorem freed_entry {b e : ℕ} {t t' : Forest} {O : ℕ → Prop} {M M' : Machine σ} (h : Freed v live b t t' e O M M')
    {e' : ℕ} (he' : e' ∈ t'.e.inorder) : e' ∈ t.e.inorder ∧ objectOf M' e' = objectOf M e' :=
  ⟨h.entries.mem_iff.mpr (mem_cons_of_mem _ he'), h.keptE e' he' 16 (by decide)⟩

theorem Intact.object_freed (I : Intact v live st T) (hd : d ∈ st.made) (he : e ∈ (T d.b).e.inorder)
    (hrefs : (st.mach.obj (objectOf st.mach e)).refs < 2)
    (h : Freed v live d.b (T d.b) t' e (Gone st.mach (objectOf st.mach e)) st.mach M') :
    Owner.object (objectOf st.mach e) ∉
      owners ⟨M', st.made, st.objs.filter fun o => some o ≠ some (objectOf st.mach e)⟩ (update T d.b t') := by
  have hnd := nodup_cons.mp (h.entries.nodup_iff.mp ((I.block hd).trees.spreadE.nodup (by decide)))
  rintro (ho | ⟨e', he', ho⟩)
  · have := (mem_filter.mp ho).2
    simp at this
  · have hpre : IsEntry st T e' ∧ e ≠ e' ∧ objectOf st.mach e = objectOf st.mach e' := by
      rcases (OneBlock.free hd he h).entry_cases I he' with he' | ⟨⟨d', hd', hb, he'⟩, hsame⟩
      · exact ⟨⟨d, hd, (freed_entry h he').1⟩, fun h => hnd.1 (h ▸ he'), ho.symm.trans (freed_entry h he').2⟩
      · refine ⟨⟨d', hd', he'⟩, ?_, ho.symm.trans hsame⟩
        rintro rfl
        exact I.block_ne hd hd' hb (.inr (mem_append_right _ he')) (.inr (mem_append_right _ he))
    have := I.shared e e' ⟨d, hd, he⟩ hpre.1 hpre.2.1 hpre.2.2
    omega

theorem Intact.free (I : Intact v live st T) (hd : d ∈ st.made) (he : e ∈ (T d.b).e.inorder)
    (hrefs : (st.mach.obj (objectOf st.mach e)).refs < 2)
    (h : Freed v live d.b (T d.b) t' e (Gone st.mach (objectOf st.mach e)) st.mach M') :
    Intact v live ⟨M', st.made, st.objs.filter fun o => some o ≠ some (objectOf st.mach e)⟩
      (update T d.b t') := by
  have hold : ∀ s ∈ t'.nodes, s ∈ (T d.b).nodes := by
    intro s hs
    rcases mem_append.mp hs with hs | hs
    · rcases h.frees with ⟨hp, -⟩ | ⟨f, hf, hp, -⟩
      · rcases mem_cons.mp (hp.mem_iff.mp hs) with rfl | hs
        · exact mem_append_right _ he
        · exact mem_append_left _ hs
      · rcases mem_cons.mp (hp.mem_iff.mp hs) with rfl | hs
        · exact mem_append_left _ hf
        · exact mem_append_left _ (mem_of_mem_erase hs)
    · exact mem_append_right _ (freed_entry h hs).1
  exact I.change (OneBlock.free hd he h) h.head h.trees h.home (fun s hs _ => hold s hs)
    (fun o ho _ => (mem_filter.mp ho).1) (fun e' he' _ => freed_entry h he')
    fun ho => absurd ho (I.object_freed hd he hrefs h)

/-- KEPT: at most one owner more, of nodes that were not in use. -/
theorem Intact.extend (C : Set Owner) (hC : C.Subsingleton) (I : Intact v live st T)
    (hchain : ∃ bs, Linked.Chain (nextBlock st'.mach.mem) (ptr (st'.mach.mem (v + 8))) bs ∧
      ∀ b ∈ bs, ∃ d ∈ st'.made, d.b = b)
    (hmade : ∀ d ∈ st'.made, d ∈ st.made ∨
      .block d.b ∈ C ∧ Trees d.b st'.mach.mem (T' d.b).a (T' d.b).s (T' d.b).e ∧ (T' d.b).e = .nil)
    (hT : ∀ d ∈ st.made, T' d.b = T d.b)
    (hobjs : ∀ o ∈ st'.objs, o ∈ st.objs ∨ .object o ∈ C ∧ 0 ≤ (st'.mach.obj o).refs)
    (hold : ∀ p ∈ live st.mach.env, p ∈ live st'.mach.env ∧ st'.mach.obj p = st.mach.obj p)
    (hnodes : ∀ d ∈ st.made, ∀ p ∈ (T d.b).nodes, ∀ i < 64, st'.mach.mem (p + i) = st.mach.mem (p + i))
    (hblocks : ∀ d ∈ st.made, ∀ i < 64, i ≠ 16 → st'.mach.mem (d.b + i) = st.mach.mem (d.b + i))
    (hfoot : ∀ x ∈ C, ∀ p ∈ foot st'.mach T' x, p ∉ live st.mach.env ∧ p ∈ live st'.mach.env) :
    Intact v live st' T' := by
  -- entries are those that were there, on the same objects
  have hent : ∀ e, IsEntry st' T' e → IsEntry st T e ∧ objectOf st'.mach e = objectOf st.mach e := by
    rintro e ⟨d, hd, he⟩
    rcases hmade d hd with hd | ⟨-, -, hnil⟩
    · rw [hT d hd] at he
      exact ⟨⟨d, hd, he⟩, hnodes d hd e (mem_append_right _ he) 16 (by decide)⟩
    · simp [hnil] at he
  have hobj : ∀ e, IsEntry st T e → st'.mach.obj (objectOf st.mach e) = st.mach.obj (objectOf st.mach e) :=
    fun e he => (hold _ (I.separate.inUse _ (object_owner he) (.inl rfl))).2
  have hown : ∀ y ∈ owners st' T', y ∉ C → y ∈ owners st T := by
    intro y hy hne
    cases y with
    | block b =>
      obtain ⟨d, hd, rfl⟩ := hy
      rcases hmade d hd with hd | ⟨hC, -⟩
      · exact ⟨d, hd, rfl⟩
      · exact absurd hC hne
    | object o =>
      rcases hy with ho | ⟨e, he, rfl⟩
      · rcases hobjs o ho with ho | ⟨hC, -⟩
        · exact .inl ho
        · exact absurd hC hne
      · obtain ⟨he, heq⟩ := hent e he
        exact .inr ⟨e, he, heq.symm⟩
  have hsame : ∀ y ∈ owners st T, foot st'.mach T' y = foot st.mach T y := by
    intro y hy
    cases y with
    | block b =>
      obtain ⟨d, hd, rfl⟩ := hy
      simp only [foot, hT d hd]
    | object o => rw [foot, foot, gone_congr (hold o (I.separate.inUse _ hy (.inl rfl))).2]
  refine ⟨hchain, fun d hd => ?_, ?_, fun o ho => ?_, fun e he => ?_, fun e e' he he' hne heq => ?_⟩
  · rcases hmade d hd with hd | ⟨-, htrees, -⟩
    · have hword := hblocks d hd
      rw [hT d hd]
      exact (I.trees d hd).congr ⟨hword 24 (by decide) (by decide), hword 32 (by decide) (by decide),
        hword 40 (by decide) (by decide)⟩ (fun s hs i _ hi => hnodes d hd s (mem_append_left _ hs) i hi)
        fun s hs i _ hi => hnodes d hd s (mem_append_right _ hs) i hi
    · exact htrees
  · refine I.separate.update (fun y hy hne => hown y hy hne) (fun y hy hne => ?_)
      (fun y hy hyC p hp => (hfoot y hyC p hp).2) (fun y hy hyC p hp hlive => absurd hlive (hfoot y hyC p hp).1)
      fun y hy hyC z hz hzC hne => absurd (hC hyC hzC) hne
    have hy := hown y hy hne
    exact ⟨hsame y hy, fun p hp => (hold p (I.separate.inUse y hy hp)).1⟩
  · rcases hobjs o ho with ho | ⟨-, hrefs⟩
    · rw [(hold o (I.separate.inUse (.object o) (.inl ho) (.inl rfl))).2]
      exact I.known o ho
    · exact hrefs
  · obtain ⟨he, heq⟩ := hent e he
    rw [heq, hobj e he]
    exact I.counted e he
  · obtain ⟨he, hoe⟩ := hent e he
    obtain ⟨he', hoe'⟩ := hent e' he'
    rw [hoe, hoe'] at heq
    rw [hoe, hobj e he]
    exact I.shared e e' he he' hne heq

theorem Intact.grows {objs' : List ℕ} (C : Set Owner) (hC : C.Subsingleton) (I : Intact v live st T)
    (h : Grows v live st.mach M') (hblock : ∀ b, Owner.block b ∉ C)
    (hobjs : ∀ o ∈ objs', o ∈ st.objs ∨ .object o ∈ C ∧ 0 ≤ (M'.obj o).refs)
    (hfoot : ∀ o, Owner.object o ∈ C → ∀ p, Gone M' o p → p ∉ live st.mach.env ∧ p ∈ live M'.env) :
    Intact v live ⟨M', st.made, objs'⟩ T := by
  have hin : ∀ d ∈ st.made, ∀ p, p = d.b ∨ p ∈ (T d.b).nodes → ∀ i < 64, M'.mem (p + i) = st.mach.mem (p + i) :=
    fun d hd p hp => h.mem p (I.separate.inUse _ (block_owner hd) hp) id
  refine I.extend C hC ?_ (fun d hd => .inl hd) (fun _ _ => rfl) hobjs
    (fun p hp => ⟨h.inUse p hp id, h.obj p hp id⟩) (fun d hd p hp => hin d hd p (.inr hp))
    (fun d hd i hi _ => hin d hd d.b (.inl rfl) i hi) fun x hx p hp => ?_
  · obtain ⟨bs, hbs, hmade⟩ := I.chain
    refine ⟨bs, ?_, hmade⟩
    simp only [h.space 8 (by decide)]
    refine hbs.congr fun b hb => ?_
    obtain ⟨d, hd, rfl⟩ := hmade b hb
    rw [nextBlock, nextBlock, hin d hd d.b (.inl rfl) 16 (by decide)]
  · cases x with
    | block b => exact absurd hx (hblock b)
    | object o => exact hfoot o hx p hp

theorem Intact.object (I : Intact v live st T) (h : Takes v live st.mach [o] M')
    (hobj : (M'.obj o).pages = [] ∧ (M'.obj o).refs = 0) : Intact v live ⟨M', st.made, o :: st.objs⟩ T := by
  refine I.grows {.object o} Set.subsingleton_singleton h.within (fun b hb => by cases hb) (fun o' ho' => ?_)
    fun o' ho' p hp => ?_
  · rcases mem_cons.mp ho' with rfl | ho'
    · exact .inr ⟨rfl, hobj.2.ge⟩
    · exact .inl ho'
  · obtain rfl := Owner.object.inj ho'
    rcases hp with rfl | ⟨q, hq, -⟩
    · exact h.new _ (mem_singleton_self _)
    · simp [hobj.1] at hq

theorem Intact.added {n fr start fin : ℕ} {a : ℕ × ℕ} (I : Intact v live st T) (h : Added v live st n fr a M') :
    Intact v live ⟨M', ⟨n, start, fin⟩ :: st.made, st.objs⟩
      (update T n ⟨.node .nil fr .nil, .node .nil fr .nil, .nil⟩) := by
  have hne : ∀ d ∈ st.made, d.b ≠ n := by
    rintro d hd rfl
    exact h.new.1 (I.block hd).home.block
  refine I.extend {.block n} Set.subsingleton_singleton ?_ (fun d hd => ?_)
    (fun d hd => update_of_ne (hne d hd) ..) (fun o ho => .inl ho) h.inUse (fun d hd p hp => ?_) h.blocks
    fun x hx p hp => ?_
  · obtain ⟨bs, hbs, hmem⟩ := h.chain
    refine ⟨bs, hbs, fun b hb => ?_⟩
    rcases hmem b hb with rfl | ⟨d, hd, rfl⟩
    · exact ⟨_, mem_cons_self, rfl⟩
    · exact ⟨d, mem_cons_of_mem _ hd, rfl⟩
  · rcases mem_cons.mp hd with rfl | hd
    · refine .inr ⟨rfl, ?_⟩
      simp only [update_self]
      exact ⟨h.trees, trivial⟩
    · exact .inl hd
  · exact h.nodes p ((I.block hd).home.nodes p hp) fun d' hd' => I.not_block hd hd' hp
  · obtain rfl : x = .block n := hx
    simp only [foot, update_self] at hp
    rcases hp with rfl | hp
    · exact h.new
    · obtain rfl : p = fr := by simpa [Forest.nodes] using hp
      exact h.newFree

theorem Change.intact (h : Change v live R st T st' T') (I : Intact v live st T) : Intact v live st' T' := by
  cases h with
  | grow h =>
    exact I.grows ∅ Set.subsingleton_empty h (fun _ hb => hb.elim) (fun _ ho => .inl ho) fun _ ho => ho.elim
  | same hd h => exact I.same hd h
  | carve hd _ h ho => exact I.carve hd h ho
  | free hd he hrefs h => exact I.free hd he hrefs h
  | object h hobj => exact I.object h hobj
  | block h => exact I.added h

/-! ### Entries and objects after a change -/

/-- An object that is not new was there before, if its entries were. -/
theorem old_owner (ho : Owner.object o ∈ owners st' T')
    (hent : ∀ e, IsEntry st' T' e → IsEntry st T e ∧ objectOf st'.mach e = objectOf st.mach e)
    (hobj : o ∈ st'.objs → o ∈ st.objs) : Owner.object o ∈ owners st T := by
  rcases ho with ho | ⟨e, he, rfl⟩
  · exact .inl (hobj ho)
  · obtain ⟨he, heq⟩ := hent e he
    exact .inr ⟨e, he, heq.symm⟩

theorem isEntry_update {objs' : List ℕ} {e' : ℕ} (hd : d ∈ st.made) (h : t'.e.inorder.Perm (e :: (T d.b).e.inorder)) :
    IsEntry ⟨M', st.made, objs'⟩ (update T d.b t') e' ↔ e' = e ∨ IsEntry st T e' := by
  constructor
  · rintro ⟨d', hd', he'⟩
    rcases eq_or_ne d'.b d.b with heq | hne
    · rw [heq, update_self] at he'
      exact (mem_cons.mp (h.mem_iff.mp he')).imp_right fun hmem => ⟨d, hd, hmem⟩
    · rw [update_of_ne hne] at he'
      exact .inr ⟨d', hd', he'⟩
  · rintro (rfl | ⟨d', hd', he'⟩)
    · exact ⟨d, hd, by rw [update_self]; exact h.mem_iff.mpr mem_cons_self⟩
    · refine ⟨d', hd', ?_⟩
      rcases eq_or_ne d'.b d.b with heq | hne
      · rw [heq, update_self]
        exact h.mem_iff.mpr (mem_cons_of_mem _ (heq ▸ he'))
      · rwa [update_of_ne hne]

/-- The entries are where they were, with the same contents, and so are the objects. -/
structure Quiet (st : St σ) (T : ℕ → Forest) (st' : St σ) (T' : ℕ → Forest) : Prop where
  entry : ∀ {e}, IsEntry st' T' e ↔ IsEntry st T e
  word : ∀ {e}, IsEntry st T e → ∀ i < 40, st'.mach.mem (e + i) = st.mach.mem (e + i)
  objs : st'.objs = st.objs
  obj : ∀ {o}, Owner.object o ∈ owners st T → st'.mach.obj o = st.mach.obj o

theorem Quiet.object (h : Quiet st T st' T') (he : IsEntry st T e) : objectOf st'.mach e = objectOf st.mach e :=
  h.word he 16 (by decide)

theorem Quiet.owner (h : Quiet st T st' T') : Owner.object o ∈ owners st' T' ↔ Owner.object o ∈ owners st T :=
  ⟨fun ho => old_owner ho (fun _ he => ⟨h.entry.mp he, h.object (h.entry.mp he)⟩) (h.objs ▸ ·), fun ho =>
    old_owner ho (fun _ he => ⟨h.entry.mpr he, (h.object he).symm⟩) (h.objs.symm ▸ ·)⟩

namespace Intact
variable (I : Intact v live st T)
include I

theorem object_inUse (ho : Owner.object o ∈ owners st T) : o ∈ live st.mach.env :=
  I.separate.inUse _ ho (.inl rfl)

theorem quiet_grow (h : Grows v live st.mach M') : Quiet st T ⟨M', st.made, st.objs⟩ T :=
  ⟨Iff.rfl, fun he i hi => h.mem _ (I.entry_inUse he) id i (by omega), rfl, fun ho => h.obj _ (I.object_inUse ho) id⟩

theorem quiet_same (hd : d ∈ st.made) (h : Same v live d.b (T d.b) st.mach M') : Quiet st T ⟨M', st.made, st.objs⟩ T :=
  have hone := OneBlock.same hd h
  ⟨Iff.rfl, hone.entry_kept I h.keptE, rfl, fun ho =>
    (hone.other_object I ho fun heq => I.object_ne ho hd (.inl rfl) (.inl heq)).1⟩

theorem quiet_block {n fr start fin : ℕ} {a : ℕ × ℕ} (h : Added v live st n fr a M') :
    Quiet st T ⟨M', ⟨n, start, fin⟩ :: st.made, st.objs⟩ (update T n ⟨.node .nil fr .nil, .node .nil fr .nil, .nil⟩) := by
  have hne : ∀ d ∈ st.made, d.b ≠ n := by
    rintro d hd rfl
    exact h.new.1 (I.block hd).home.block
  refine ⟨fun {e} => ⟨?_, ?_⟩, fun {e} he i hi => ?_, rfl, fun ho => (h.inUse _ (I.object_inUse ho)).2⟩
  · rintro ⟨d, hd, he⟩
    rcases mem_cons.mp hd with rfl | hd
    · simp at he
    · rw [update_of_ne (hne d hd)] at he
      exact ⟨d, hd, he⟩
  · rintro ⟨d, hd, he⟩
    exact ⟨d, mem_cons_of_mem _ hd, by rwa [update_of_ne (hne d hd)]⟩
  · obtain ⟨d, hd, hmem⟩ := he
    exact h.nodes e (I.entry_inUse ⟨d, hd, hmem⟩) (fun d' hd' => I.not_block hd hd' (mem_append_right _ hmem)) i (by omega)

/-- The other objects are as they were before an entry was carved out. -/
theorem carved_object {f e o : ℕ} {x : Entry} (hd : d ∈ st.made) (h : Carved v live d.b f (T d.b) t' e x st.mach M')
    (ho : Backed live st (T d.b) t' x.object M') (hne : o ≠ x.object)
    (ho' : Owner.object o ∈ owners ⟨M', st.made, st.objs⟩ (update T d.b t')) :
    Owner.object o ∈ owners st T ∧ M'.obj o = st.mach.obj o := by
  have hone : OneBlock v live st T d x.object M' := .carve hd h ho
  have hold : Owner.object o ∈ owners st T :=
    hone.other_owner I (fun _ he' hne => carved_entry h he' (.inl hne)) (fun _ h _ => h) hne ho'
  exact ⟨hold, (hone.other_object I hold hne).1⟩

/-- The objects that are left are as they were before an entry was freed. -/
theorem freed_object {o : ℕ} (hd : d ∈ st.made) (he : e ∈ (T d.b).e.inorder)
    (hrefs : (st.mach.obj (objectOf st.mach e)).refs < 2)
    (h : Freed v live d.b (T d.b) t' e (Gone st.mach (objectOf st.mach e)) st.mach M')
    (ho : Owner.object o ∈
      owners ⟨M', st.made, st.objs.filter fun o => some o ≠ some (objectOf st.mach e)⟩ (update T d.b t')) :
    o ≠ objectOf st.mach e ∧ Owner.object o ∈ owners st T ∧ M'.obj o = st.mach.obj o := by
  have hone := OneBlock.free hd he h
  have hne : o ≠ objectOf st.mach e := fun heq => I.object_freed hd he hrefs h (heq ▸ ho)
  have hold : Owner.object o ∈ owners st T :=
    hone.other_owner I (fun e' he' _ => freed_entry h he') (fun o ho _ => (mem_filter.mp ho).1) hne ho
  exact ⟨hne, hold, (hone.other_object I hold hne).1⟩

theorem added_object {o' : ℕ} (h : Takes v live st.mach [o] M') (hne : o' ≠ o)
    (ho' : Owner.object o' ∈ owners ⟨M', st.made, o :: st.objs⟩ T) :
    Owner.object o' ∈ owners st T ∧ M'.obj o' = st.mach.obj o' := by
  have hold : Owner.object o' ∈ owners st T :=
    old_owner ho' (fun e he => ⟨he, h.within.mem e (I.entry_inUse he) id 16 (by decide)⟩)
      fun hmem => (mem_cons.mp hmem).resolve_left hne
  exact ⟨hold, h.within.obj o' (I.object_inUse hold) id⟩

end Intact

end

end Advos.Space
