import Advos.Vmem.Restored
import Advos.Vmem.Teardown

/-! Address spaces that can be torn down.

    `virt_memory_release` returns when no block has a free interval, and then it returns every block, every
    entry and every object of an entry, once. It returns no frame. So it leaves nothing behind in the states
    in which nothing else is there:

        block  |== e1 ==|===== e2 =====|== e3 ==|       no free interval, and no frame for e1, e2, e3

    For this the list of the space has all its blocks, and an object counts its entries. -/

namespace Advos.Space
open Vmem SearchTree Word Function Relation List
open Pgt (PageTable walk)

variable {σ : Type} {E : Env σ} {v : ℕ} {live : σ → Set ℕ} {st st' : St σ} {T T' : ℕ → Forest}

/-! ### Entries and objects -/

/-- The blocks with their trees. -/
def forests (made : List Made) (T : ℕ → Forest) : List (ℕ × Forest) := made.map fun d => (d.b, T d.b)

theorem forests_congr {made : List Made} (h : ∀ d ∈ made, T' d.b = T d.b) : forests made T' = forests made T :=
  map_congr_left fun d hd => by rw [h d hd]

theorem mem_entriesOf {e : ℕ} : e ∈ entriesOf (forests st.made T) ↔ IsEntry st T e := by
  simp [entriesOf, forests, IsEntry, mem_flatMap]

theorem entriesOf_update {made : List Made} {d : Made} {t' : Forest} {e : ℕ} (hnodup : (made.map Made.b).Nodup)
    (hd : d ∈ made) (he : t'.e.inorder.Perm (e :: (T d.b).e.inorder)) :
    (entriesOf (forests made (update T d.b t'))).Perm (e :: entriesOf (forests made T)) := by
  induction made with
  | nil => cases hd
  | cons d' made ih =>
    obtain ⟨hnot, hnodup⟩ := nodup_cons.mp hnodup
    simp only [forests, map_cons, entriesOf_cons]
    rcases mem_cons.mp hd with rfl | hd
    · have hrest : forests made (update T d.b t') = forests made T := by
        refine forests_congr fun d' hd' => update_of_ne (fun heq => hnot ?_) ..
        rw [← heq]
        exact mem_map_of_mem hd'
      rw [update_self]
      rw [forests, forests] at hrest
      rw [hrest, ← cons_append]
      exact he.append_right _
    · have hne : d'.b ≠ d.b := fun heq => hnot (heq ▸ mem_map_of_mem hd)
      rw [update_of_ne hne]
      exact ((ih hnodup hd).append_left _).trans perm_middle

/-! ### The list of the space and the references -/

/-- The list has the blocks of the space, an object counts its entries, and no page is wired. -/
structure Rooted (v : ℕ) (st : St σ) (T : ℕ → Forest) : Prop where
  listed : ∃ bs, Linked.Chain (nextBlock st.mach.mem) (ptr (st.mach.mem (v + 8))) bs ∧ bs.Perm (st.made.map Made.b)
  refs : ∀ o, Owner.object o ∈ owners st T →
    (st.mach.obj o).refs = (objectsOf st.mach.mem (forests st.made T)).count o
  plain : ∀ o, Owner.object o ∈ owners st T → ∀ p ∈ (st.mach.obj o).pages, isWired p = false

/-- What is known of the changes of a space that is built. -/
def Building (E : Env σ) (v : ℕ) : Kind → Machine σ → Machine σ → Prop
  | .block n, M, M' => n ≠ 0 ∧ ∃ start fin, virtMemoryBlockAdd E v start fin M = .ok (n, M')
  | .carve own _ x, M, M' => (own = true ∨ ∀ p ∈ (M.obj x.object).pages, isWired p = false) →
    ∀ p ∈ (M'.obj x.object).pages, isWired p = false
  | .free _ _, _, _ => False
  | _, _, _ => True

theorem Rooted.nodup (S : Rooted v st T) : (st.made.map Made.b).Nodup := by
  obtain ⟨bs, hbs, hperm⟩ := S.listed
  exact hperm.nodup_iff.mp hbs.nodup

theorem Rooted.relisted {M' : Machine σ} (S : Rooted v st T) (hhead : M'.mem (v + 8) = st.mach.mem (v + 8))
    (hnext : ∀ d ∈ st.made, M'.mem (d.b + 16) = st.mach.mem (d.b + 16)) :
    ∃ bs, Linked.Chain (nextBlock M'.mem) (ptr (M'.mem (v + 8))) bs ∧ bs.Perm (st.made.map Made.b) := by
  obtain ⟨bs, hbs, hperm⟩ := S.listed
  refine ⟨bs, ?_, hperm⟩
  rw [hhead]
  refine hbs.congr fun b hb => ?_
  obtain ⟨d, hd, rfl⟩ := mem_map.mp (hperm.mem_iff.mp hb)
  rw [nextBlock, nextBlock, hnext d hd]

theorem Rooted.relisted_one {d : Made} {o : ℕ} {M' : Machine σ} (S : Rooted v st T) (I : Intact v live st T)
    (h : OneBlock v live st T d o M') (hspace : M'.mem (v + 8) = st.mach.mem (v + 8))
    (hhead : M'.mem (d.b + 16) = st.mach.mem (d.b + 16)) :
    ∃ bs, Linked.Chain (nextBlock M'.mem) (ptr (M'.mem (v + 8))) bs ∧ bs.Perm (st.made.map Made.b) := by
  refine S.relisted hspace fun d' hd' => ?_
  rcases eq_or_ne d'.b d.b with heq | hne
  · rwa [heq]
  · exact ((h.other_block I hd' hne).2 d'.b (.inl rfl)).2 16 (by decide)

/-- KEPT: the entries are those that were there, and an object is new or as it was. -/
theorem Rooted.keep (S : Rooted v st T) (I : Intact v live st T)
    (hlist : ∃ bs, Linked.Chain (nextBlock st'.mach.mem) (ptr (st'.mach.mem (v + 8))) bs ∧ bs.Perm (st'.made.map Made.b))
    (hent : entriesOf (forests st'.made T') = entriesOf (forests st.made T))
    (hword : ∀ e, IsEntry st T e → objectOf st'.mach e = objectOf st.mach e)
    (hobj : ∀ o, Owner.object o ∈ owners st' T' → Owner.object o ∈ owners st T ∧ st'.mach.obj o = st.mach.obj o ∨
      o ∉ live st.mach.env ∧ (st'.mach.obj o).pages = [] ∧ (st'.mach.obj o).refs = 0) : Rooted v st' T' := by
  have hobjs : objectsOf st'.mach.mem (forests st'.made T') = objectsOf st.mach.mem (forests st.made T) := by
    rw [objectsOf, objectsOf, hent]
    exact map_congr_left fun e he => hword e (mem_entriesOf.mp he)
  refine ⟨hlist, fun o ho => ?_, fun o ho p hp => ?_⟩
  · rw [hobjs]
    rcases hobj o ho with ⟨hown, heq⟩ | ⟨hnew, -, hrefs⟩
    · rw [heq]
      exact S.refs o hown
    · rw [hrefs, count_eq_zero.mpr]
      · rfl
      · intro hmem
        obtain ⟨e, he, rfl⟩ := mem_map.mp hmem
        exact hnew (I.object_inUse (object_owner (mem_entriesOf.mp he)))
  · rcases hobj o ho with ⟨hown, heq⟩ | ⟨-, hnil, -⟩
    · rw [heq] at hp
      exact S.plain o hown p hp
    · rw [hnil] at hp
      cases hp

/-- KEPT: an entry is carved out, with an object of its own or on one that is there. -/
theorem Rooted.carve {d : Made} {f e : ℕ} {x : Entry} {t' : Forest} {M' : Machine σ} (S : Rooted v st T)
    (I : Intact v live st T) (hd : d ∈ st.made) (h : Carved v live d.b f (T d.b) t' e x st.mach M')
    (ho : Backed live st (T d.b) t' x.object M') (hpages : (x.object ∉ live st.mach.env ∨
      ∀ p ∈ (st.mach.obj x.object).pages, isWired p = false) → ∀ p ∈ (M'.obj x.object).pages, isWired p = false) :
    Rooted v ⟨M', st.made, st.objs⟩ (update T d.b t') := by
  have hone : OneBlock v live st T d x.object M' := .carve hd h ho
  have hx : objectOf M' e = x.object := congrArg Entry.object h.entry
  have hword : ∀ e' ∈ entriesOf (forests st.made T), objectOf M' e' = objectOf st.mach e' := fun e' he' =>
    hone.entry_kept I h.keptE (mem_entriesOf.mp he') 16 (by decide)
  -- one reference more, to the object of the entry
  have hobjs : (objectsOf M'.mem (forests st.made (update T d.b t'))).Perm
      (x.object :: objectsOf st.mach.mem (forests st.made T)) := by
    have hperm := (entriesOf_update S.nodup hd h.entries).map (objectOf M')
    rwa [map_cons, hx, map_congr_left hword] at hperm
  refine ⟨?_, fun o ho' => ?_, fun o ho' p hp => ?_⟩
  · exact S.relisted_one I hone (h.within.space 8 (by decide)) (h.head d.b (mem_singleton_self _) 16 (by decide))
  · rw [hobjs.count_eq]
    rcases eq_or_ne o x.object with rfl | hne
    · rw [count_cons_self]
      rcases ho.refs with ⟨hnew, hone⟩ | ⟨hmem, hmore⟩
      · rw [count_eq_zero.mpr]
        · exact hone
        · intro hmem
          obtain ⟨e', he', heq⟩ := mem_map.mp hmem
          exact hnew (heq ▸ I.object_inUse (object_owner (mem_entriesOf.mp he')))
      · dsimp only
        rw [hmore, S.refs _ (.inl hmem), Nat.cast_succ]
    · obtain ⟨hown, heq⟩ := I.carved_object hd h ho hne ho'
      rw [count_cons_of_ne hne.symm]
      dsimp only
      rw [heq]
      exact S.refs o hown
  · rcases eq_or_ne o x.object with rfl | hne
    · exact hpages (ho.refs.imp And.left fun h => S.plain _ (.inl h.1)) p hp
    · obtain ⟨hown, heq⟩ := I.carved_object hd h ho hne ho'
      dsimp only at hp
      rw [heq] at hp
      exact S.plain o hown p hp

/-- KEPT: every change of a space that is built. -/
theorem Rooted.change (hE : Lawful E v live) (S : Rooted v st T) (I : Intact v live st T)
    (h : Change v live (Building E v) st T st' T') : Rooted v st' T' := by
  have hquiet : ∀ {st' : St σ} {T'}, Quiet st T st' T' →
      (∃ bs, Linked.Chain (nextBlock st'.mach.mem) (ptr (st'.mach.mem (v + 8))) bs ∧ bs.Perm (st'.made.map Made.b)) →
      entriesOf (forests st'.made T') = entriesOf (forests st.made T) → Rooted v st' T' := fun q hlist hent =>
    S.keep I hlist hent (fun e he => q.object he) fun o ho => .inl ⟨q.owner.mp ho, q.obj (q.owner.mp ho)⟩
  cases h with
  | grow h _ =>
    exact hquiet (I.quiet_grow h) (S.relisted (h.space 8 (by decide)) fun d hd =>
      h.mem d.b (I.block hd).home.block id 16 (by decide)) rfl
  | @same d M' hd h _ =>
    have hhead := h.head d.b (mem_singleton_self _) 16 (by decide)
    exact hquiet (I.quiet_same hd h) (S.relisted_one I (.same hd h) (h.within.space 8 (by decide)) hhead) rfl
  | @carve d f t' e x own M' hd hf h ho hown hR =>
    refine S.carve I hd h ho fun hor => hR ?_
    cases own with
    | true => exact .inl rfl
    | false => exact .inr (hor.resolve_left fun hnew => hnew (I.object_inUse (.inl hown)))
  | free _ _ _ _ hR => exact hR.elim
  | @object o M' h hobj _ =>
    refine S.keep I (S.relisted (h.within.space 8 (by decide)) fun d hd =>
      h.within.mem d.b (I.block hd).home.block id 16 (by decide)) rfl
      (fun e he => h.within.mem e (I.entry_inUse he) id 16 (by decide)) fun o' ho' => ?_
    rcases eq_or_ne o' o with rfl | hne
    · exact .inr ⟨(h.new o' (mem_singleton_self _)).1, hobj⟩
    · exact .inl (I.added_object h hne ho')
  | @block n fr start fin M' h hR =>
    have hne : ∀ d ∈ st.made, d.b ≠ n := fun d hd heq => h.new.1 (heq ▸ (I.block hd).home.block)
    have hsame : forests st.made (update T n ⟨.node .nil fr .nil, .node .nil fr .nil, .nil⟩) =
        forests st.made T := forests_congr fun d hd => update_of_ne (hne d hd) ..
    refine hquiet (I.quiet_block h) ?_ ?_
    · obtain ⟨hn, start', fin', hadd⟩ := hR
      obtain ⟨bs, hbs, hperm⟩ := S.listed
      have hlive : ∀ b ∈ bs, b ∈ live st.mach.env := by
        intro b hb
        obtain ⟨d, hd, rfl⟩ := mem_map.mp (hperm.mem_iff.mp hb)
        exact (I.block hd).home.block
      obtain ⟨fr', hins⟩ := virtMemoryBlockAdd_inserted hE hbs hlive hadd hn
      obtain ⟨pre, post, rfl, hchain, -⟩ := hins.chain
      exact ⟨_, hchain, perm_middle.trans (hperm.cons n)⟩
    · rw [forests, map_cons, entriesOf_cons, update_self, ← forests, hsame]
      rfl

/-! ### Calls that build -/

section Rules
variable {M M' : Machine (σ × Ledger)}

end Rules

/-! ### A space that stands -/

theorem Intact.nodup (I : Intact v live st T) (hnodup : (st.made.map Made.b).Nodup) :
    (nodesOf (forests st.made T)).Nodup := by
  rw [nodesOf, forests, flatMap_map, nodup_flatMap]
  refine ⟨fun d hd => nodup_cons.mpr ⟨fun hmem => (I.trees d hd).ne_block hmem rfl, ?_⟩, ?_⟩
  · exact (I.trees d hd).apart.imp fun h heq => by
      subst heq
      rcases h with h | h <;> omega
  · refine (pairwise_map.mp hnodup).imp_of_mem fun hd hd' hne => ?_
    rintro p hp hp'
    exact I.block_ne hd' hd hne (mem_cons.mp hp) (mem_cons.mp hp')

theorem Rooted.standing (S : Rooted v st T) (I : Intact v live st T)
    (hpages : ∀ o, Owner.object o ∈ owners st T → (st.mach.obj o).pages = []) :
    Standing live st.mach (forests st.made T) := by
  have hown : ∀ o ∈ objectsOf st.mach.mem (forests st.made T), Owner.object o ∈ owners st T := by
    intro o ho
    obtain ⟨e, he, rfl⟩ := mem_map.mp ho
    exact object_owner (mem_entriesOf.mp he)
  refine ⟨fun x hx => ?_, I.nodup S.nodup, fun o ho => ⟨I.separate.inUse _ (hown o ho) (.inl rfl), fun hmem => ?_⟩,
    fun o ho => hpages o (hown o ho), fun o ho => S.refs o (hown o ho)⟩
  · obtain ⟨d, hd, rfl⟩ := mem_map.mp hx
    exact I.block hd
  · obtain ⟨x, hx, hmem⟩ := mem_flatMap.mp hmem
    obtain ⟨d, hd, rfl⟩ := mem_map.mp hx
    exact I.object_ne (hown o ho) hd (.inl rfl) (mem_cons.mp hmem)

/-- The calls that build a space, with nothing left over at address 0. -/
def Op.Builds (v : ℕ) (st : St σ) : Op → Prop
  | .blockAdd _ _ => True
  | .allocObject _ => True
  | .allocEntry _ addr size _ _ => OffZeroAt v st addr size
  | .allocPages nr _ _ => OffZero st nr
  | .allocPagesAddr virtual nr _ _ => OffZeroAt v st virtual (mul64 nr 4096)
  | _ => False

theorem Op.Builds.meets {op : Op} (h : op.Builds v st) : op.Meets v st (fun M a j => Paying E v M a j ∧ j.wired = false)
    (fun a x => ∀ r ∈ rest a (x.start, x.size), r.1 ≠ 0) fun _ _ _ => False := by
  cases op with
  | blockAdd => trivial
  | allocObject => trivial
  | allocEntry => exact h
  | allocPages => exact fun d hd f hf => ⟨⟨h d hd f hf, fun _ hw => Bool.noConfusion hw⟩, rfl⟩
  | allocPagesAddr => exact fun b f hf => ⟨⟨h b f hf, fun _ hw => Bool.noConfusion hw⟩, rfl⟩
  | wire => exact h.elim
  | wire2 => exact h.elim
  | freePages => exact h.elim

section Main
variable {M₀ : Machine (((σ × (ℕ → ℤ)) × PageTable) × Ledger)} {st : St (((σ × (ℕ → ℤ)) × PageTable) × Ledger)}

end Main

end Advos.Space
