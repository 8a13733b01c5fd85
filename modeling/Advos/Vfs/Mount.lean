import Mathlib.Data.Finset.Insert
import Mathlib.Data.Finset.Erase
import Mathlib.Data.List.FinRange
import Mathlib.Tactic.Common
import Mathlib.Tactic.SplitIfs

/-! Mounting on the root directory (`vfs.c`).

    A directory is a mount point when the `mount` field of its vnode is set. `vfs_mount` sets the
    field, with an object from the slab; `vfs_unmount` is to clear it and to give the object back:

        mount = NULL  ── vfs_mount ──▶  mount = object
                      ◀─ vfs_unmount ─

    The first test of `vfs_unmount` is the one of `vfs_mount`: a set field makes it return -1, and so
    does, two lines on, a field that is not set. The lower arrow is never taken.

    The slab allocator is a parameter; nothing is assumed of it. Filesystem modules bring their
    callbacks as functions. -/

namespace Advos.Vfs
open List

variable {σ : Type}

/-- `VFS_MAXTYPE`. -/
def maxType : ℕ := 64

/-- `VFS_MAXFS`. -/
def maxFs : ℕ := 32

/-- The three slab caches of `vfs_init`. -/
inductive Cache
  | module | mount | vnode

/-- The slab allocator: `kmem_slab_create_cache`, `kmem_slab_alloc` and `kmem_slab_free`. -/
structure Slab (σ : Type) where
  createCache : Cache → σ → ℤ × σ
  alloc : Cache → σ → Option ℕ × σ
  free : Cache → ℕ → σ → σ

/-- `vfs_interfaces_t`, as far as mounting goes; a missing callback is a NULL pointer. -/
structure Interfaces where
  mount : Option (ℕ → ℤ → ℕ → Option ℕ)
  unmount : Option (ℕ → ℤ → ℤ)

/-- `vfs_module_t`; the type is its bytes up to the NUL. -/
structure Module where
  spec : ℕ
  type : List UInt8
  ifs : Interfaces

/-- `vfs_mount_t`, with its address. -/
structure Mount where
  addr : ℕ
  spec : ℕ
  module : Option Module

/-- `vfs_vnode_t`. -/
structure Vnode where
  mount : Option Mount

/-- The module table, the root vnode, the slab, and the `vfs_mount` objects taken from it and not
    given back. -/
structure State (σ : Type) where
  modules : Fin maxFs → Option Module
  rootfs : Option Vnode
  slab : σ
  mounts : Finset ℕ

/-- What `panic` makes of a call. -/
inductive Halt
  | panic

/-- `vfs_init`. -/
def vfsInit (K : Slab σ) (s : State σ) : ℤ × State σ :=
  let s := { s with modules := fun _ => none }
  let (ret, slab) := K.createCache .module s.slab
  if ret < 0 then (-1, { s with slab })
  else
    let (ret, slab) := K.createCache .mount slab
    if ret < 0 then (-1, { s with slab })
    else
      let (ret, slab) := K.createCache .vnode slab
      if ret < 0 then (-1, { s with slab })
      else
        match K.alloc .vnode slab with
        | (none, slab) => (-1, { s with slab })
        | (some _, slab) => (0, { s with slab, rootfs := some ⟨none⟩ })

/-- `vfs_register`. -/
def vfsRegister (K : Slab σ) (type : List UInt8) (ifs : Interfaces) (spec : ℕ) (s : State σ) : ℤ × State σ :=
  match (List.finRange maxFs).find? fun pos => (s.modules pos).isNone with
  | none => (-1, s)
  | some pos =>
    if type.length ≥ maxType then (-1, s)
    else
      match K.alloc .module s.slab with
      | (none, slab) => (-1, { s with slab })
      | (some _, slab) => (0, { s with slab, modules := Function.update s.modules pos (some ⟨spec, type, ifs⟩) })

/-- `VFS_DIR_DELIMITER`. -/
def delimiter : UInt8 := 47

/-- The loop of `_search_vnode` over a path, `n` bytes behind the last delimiter: a name in front of
    a delimiter is not looked up yet. -/
def resolve : ℕ → List UInt8 → Except Halt Unit
  | _, [] => .ok ()
  | n, c :: path =>
    if c = delimiter then if n ≥ 1 then .error .panic else resolve 0 path
    else resolve (n + 1) path

/-- `_search_vnode` from the root. -/
def searchVnode (path : List UInt8) (s : State σ) : Except Halt (Option Vnode) :=
  match s.rootfs with
  | none => .ok none
  | some vnode => do
    resolve 0 path
    return some vnode

/-- The search of `vfs_mount` for the module of a type; equal strings are what `kstrcmp` finds. -/
def findModule (type : List UInt8) (s : State σ) : Option Module :=
  (List.finRange maxFs).findSome? fun i => (s.modules i).filter fun e => e.type = type

/-- `vfs_mount`. -/
def vfsMount (K : Slab σ) (type dir : List UInt8) (flags : ℤ) (data : ℕ) (s : State σ) :
    Except Halt (ℤ × State σ) :=
  match findModule type s with
  | none => .ok (-1, s)
  | some e =>
    match e.ifs.mount with
    | none => .ok (-1, s)
    | some mount => do
      match ← searchVnode dir s with
      | none => return (-1, s)
      | some vnode =>
        if vnode.mount.isSome then return (-1, s)
        else
          match K.alloc .mount s.slab with
          | (none, slab) => return (-1, { s with slab })
          | (some addr, slab) =>
            let s := { s with slab, mounts := insert addr s.mounts }
            match mount e.spec flags data with
            | none => return (-1, s)
            | some spec => return (0, { s with rootfs := some ⟨some ⟨addr, spec, some e⟩⟩ })

/-- `vfs_unmount`. -/
def vfsUnmount (K : Slab σ) (dir : List UInt8) (flags : ℤ) (s : State σ) : Except Halt (ℤ × State σ) := do
  match ← searchVnode dir s with
  | none => return (-1, s)
  | some vnode =>
    if vnode.mount.isSome then return (-1, s)
    else
      match vnode.mount with
      | none => return (-1, s)
      | some mount =>
        match mount.module with
        | none => return (-1, s)
        | some module =>
          match module.ifs.unmount with
          | none => return (-1, s)
          | some unmount =>
            if unmount mount.spec flags < 0 then return (-1, s)
            else return (0, { s with
              slab := K.free .mount mount.addr s.slab
              mounts := s.mounts.erase mount.addr
              rootfs := some ⟨none⟩ })

/-! ### Sequences of calls -/

/-- One call of the three. -/
inductive Call
  | register (type : List UInt8) (ifs : Interfaces) (spec : ℕ)
  | mount (type dir : List UInt8) (flags : ℤ) (data : ℕ)
  | unmount (dir : List UInt8) (flags : ℤ)

def Call.run (K : Slab σ) (s : State σ) : Call → Except Halt (ℤ × State σ)
  | .register type ifs spec => .ok (vfsRegister K type ifs spec s)
  | .mount type dir flags data => vfsMount K type dir flags data s
  | .unmount dir flags => vfsUnmount K dir flags s

/-- Both callbacks are there and succeed. -/
structure Interfaces.Works (ifs : Interfaces) : Prop where
  mount : ∃ f, ifs.mount = some f ∧ ∀ spec flags data, f spec flags data ≠ none
  unmount : ∃ f, ifs.unmount = some f ∧ ∀ spec flags, 0 ≤ f spec flags

/-- The calls meant: modules that work, and the root directory, which is spelt with delimiters. -/
def Call.InScope : Call → Prop
  | .register _ ifs _ => ifs.Works
  | .mount _ dir _ _ => ∀ c ∈ dir, c = delimiter
  | .unmount dir _ => ∀ c ∈ dir, c = delimiter

/-- What is mounted on the root. -/
def State.mounted (s : State σ) : Option Mount := s.rootfs.bind (·.mount)

/-- A mount succeeds iff nothing is mounted, an unmount iff something is. -/
def Call.Answers (s : State σ) (r : ℤ) : Call → Prop
  | .register _ _ _ => True
  | .mount _ _ _ _ => r = 0 ↔ s.mounted = none
  | .unmount _ _ => r = 0 ↔ s.mounted ≠ none

/-- A successful mount in `s`, with an unmount as the next call, is undone by it. -/
def Call.Undone (K : Slab σ) (s s' : State σ) (r : ℤ) (next : List Call) : Call → Prop
  | .mount _ _ _ _ => r = 0 → ∀ dir flags rest, next = .unmount dir flags :: rest →
      ∃ r' s'', vfsUnmount K dir flags s' = .ok (r', s'') ∧ s''.mounted = s.mounted ∧ s''.mounts = s.mounts
  | _ => True

/-- The law over a sequence of calls. -/
def Lawful (K : Slab σ) : State σ → List Call → Prop
  | _, [] => True
  | s, c :: next => ∃ r s', c.run K s = .ok (r, s') ∧ c.Answers s r ∧ c.Undone K s s' r next ∧ Lawful K s' next

/-- What a call must meet: an unmount finds nothing mounted; a mount that finds nothing mounted
    names a registered type, and the slab has an object for it. -/
def Call.Fits (K : Slab σ) (s : State σ) : Call → Prop
  | .register _ _ _ => True
  | .mount type _ _ _ => s.mounted = none → findModule type s ≠ none ∧ (K.alloc .mount s.slab).1 ≠ none
  | .unmount _ _ => s.mounted = none

/-- Every call of a sequence meets it, in the state it is made in. -/
def AllFit (K : Slab σ) : State σ → List Call → Prop
  | _, [] => True
  | s, c :: next => c.Fits K s ∧ ∀ r s', c.run K s = .ok (r, s') → AllFit K s' next

/-! ### One call -/

/-- The states after `vfs_init`: there is a root, and the registered modules work. -/
structure Ready (s : State σ) : Prop where
  root : ∃ vnode, s.rootfs = some vnode
  works : ∀ i e, s.modules i = some e → e.ifs.Works

section
variable {K : Slab σ} {s s' : State σ} {r : ℤ} {type dir : List UInt8} {flags : ℤ} {data : ℕ}

theorem resolve_delimiters (h : ∀ c ∈ dir, c = delimiter) : resolve 0 dir = .ok () := by
  induction dir with
  | nil => rfl
  | cons c dir ih =>
    rw [resolve, if_pos (h c mem_cons_self), if_neg (by omega)]
    exact ih fun c hc => h c (mem_cons_of_mem _ hc)

theorem searchVnode_root (hdir : ∀ c ∈ dir, c = delimiter) {vnode : Vnode} (hroot : s.rootfs = some vnode) :
    searchVnode dir s = .ok (some vnode) := by
  simp only [searchVnode, hroot, resolve_delimiters hdir]
  rfl

theorem findModule_works (h : Ready s) {e : Module} (he : findModule type s = some e) : e.ifs.Works := by
  obtain ⟨i, -, hi⟩ := exists_of_findSome?_eq_some he
  exact h.works i e (Option.eq_some_of_filter_eq_some hi)

theorem unmount_fails (h : Ready s) (hdir : ∀ c ∈ dir, c = delimiter) :
    vfsUnmount K dir flags s = .ok (-1, s) := by
  obtain ⟨⟨m⟩, hroot⟩ := h.root
  rw [vfsUnmount, searchVnode_root hdir hroot]
  cases m with
  | none => rfl
  | some mount => rfl

/-- What a mount does: it fails and leaves the root as it was, or it sets the field. -/
def MountCases (K : Slab σ) (type : List UInt8) (s : State σ) (r : ℤ) (s' : State σ) : Prop :=
  (r = -1 ∧ s'.rootfs = s.rootfs ∧
      (s.mounted = none → ¬(findModule type s ≠ none ∧ (K.alloc .mount s.slab).1 ≠ none))) ∨
    (r = 0 ∧ s.mounted = none ∧ s'.mounted ≠ none ∧ (∃ vnode, s'.rootfs = some vnode) ∧
      findModule type s ≠ none ∧ (K.alloc .mount s.slab).1 ≠ none)

theorem mount_returns (K : Slab σ) (type : List UInt8) (flags : ℤ) (data : ℕ) (h : Ready s)
    (hdir : ∀ c ∈ dir, c = delimiter) :
    ∃ r s', vfsMount K type dir flags data s = .ok (r, s') ∧ s'.modules = s.modules ∧ MountCases K type s r s' := by
  obtain ⟨⟨m⟩, hroot⟩ := h.root
  have hmounted : s.mounted = m := by rw [State.mounted, hroot]; rfl
  rw [vfsMount]
  cases he : findModule type s with
  | none => exact ⟨-1, s, rfl, rfl, .inl ⟨rfl, rfl, fun _ h => h.1 he⟩⟩
  | some e =>
    obtain ⟨f, hf, hok⟩ := (findModule_works h he).mount
    simp only [hf, searchVnode_root hdir hroot]
    cases m with
    | some mount =>
      refine ⟨-1, s, rfl, rfl, .inl ⟨rfl, rfl, fun hnone => ?_⟩⟩
      rw [hmounted] at hnone
      cases hnone
    | none =>
      rcases ha : K.alloc .mount s.slab with ⟨_ | addr, slab⟩
      · exact ⟨-1, { s with slab }, rfl, rfl, .inl ⟨rfl, rfl, fun _ h => h.2 (by rw [ha])⟩⟩
      · cases hspec : f e.spec flags data with
        | none => exact absurd hspec (hok _ _ _)
        | some spec =>
          exact ⟨0, { s with slab, mounts := insert addr s.mounts, rootfs := some ⟨some ⟨addr, spec, some e⟩⟩ },
            rfl, rfl, .inr ⟨rfl, hmounted, by simp [State.mounted], ⟨_, rfl⟩, by simp [he], by simp [ha]⟩⟩

theorem mount_cases (h : Ready s) (hdir : ∀ c ∈ dir, c = delimiter)
    (hrun : vfsMount K type dir flags data s = .ok (r, s')) : MountCases K type s r s' := by
  obtain ⟨r1, s1, hrun1, -, hcase⟩ := mount_returns K type flags data h hdir
  rw [hrun] at hrun1
  cases hrun1
  exact hcase

/-- KEPT: a registration leaves the root alone and adds only the module it is given. -/
theorem register_ready {ifs : Interfaces} {spec : ℕ} (h : Ready s) (hw : ifs.Works) :
    Ready (vfsRegister K type ifs spec s).2 := by
  rw [vfsRegister]
  split
  · exact h
  · split_ifs
    · exact h
    · split
      · exact ⟨h.root, h.works⟩
      · refine ⟨h.root, fun i e hi => ?_⟩
        simp only [Function.update_apply] at hi
        split_ifs at hi
        · cases hi
          exact hw
        · exact h.works i e hi

theorem init_ready {s₀ : State σ} (h : vfsInit K s₀ = (0, s)) : Ready s := by
  rw [vfsInit] at h
  simp only at h
  split_ifs at h
  · cases h
  · cases h
  · cases h
  · split at h
    · cases h
    · cases h
      exact ⟨⟨_, rfl⟩, fun i e hi => by cases hi⟩

/-- KEPT: the calls in scope return and keep the state ready. -/
theorem run_ready (h : Ready s) {c : Call} (hc : c.InScope) :
    ∃ r s', c.run K s = .ok (r, s') ∧ Ready s' := by
  cases c with
  | register type ifs spec => exact ⟨_, _, rfl, register_ready h hc⟩
  | mount type dir flags data =>
    obtain ⟨r, s', hrun, hmod, hcase⟩ := mount_returns K type flags data h hc
    refine ⟨r, s', hrun, ?_, fun i e hi => h.works i e (hmod ▸ hi)⟩
    rcases hcase with ⟨-, hroot, -⟩ | ⟨-, -, -, hroot, -⟩
    · rw [hroot]; exact h.root
    · exact hroot
  | unmount dir flags => exact ⟨_, _, unmount_fails h hc, h⟩

/-- STEP: a call answers as the law says iff it meets the condition. -/
theorem answers_iff (h : Ready s) {c : Call} (hc : c.InScope) (hrun : c.run K s = .ok (r, s')) :
    c.Answers s r ↔ c.Fits K s := by
  cases c with
  | register type ifs spec => exact Iff.rfl
  | mount type dir flags data =>
    rw [Call.Answers, Call.Fits]
    rcases mount_cases h hc hrun with ⟨rfl, -, hnot⟩ | ⟨rfl, hnone, -, -, hfind, halloc⟩
    · constructor
      · intro hlaw hnone
        exact absurd (hlaw.mpr hnone) (by decide)
      · intro hfits
        exact ⟨fun h => absurd h (by decide), fun hnone => absurd (hfits hnone) (hnot hnone)⟩
    · exact ⟨fun _ _ => ⟨hfind, halloc⟩, fun _ => ⟨fun _ => hnone, fun _ => rfl⟩⟩
  | unmount dir flags =>
    rw [Call.run, unmount_fails h hc] at hrun
    cases hrun
    rw [Call.Answers, Call.Fits]
    constructor
    · intro hlaw
      by_contra hne
      exact absurd (hlaw.mpr hne) (by decide)
    · intro hnone
      exact ⟨fun h => absurd h (by decide), fun hne => absurd hnone hne⟩

/-- Where the next call meets the condition, no unmount follows a successful mount. -/
theorem undone_of_fits (h : Ready s) {c : Call} (hc : c.InScope) (hrun : c.run K s = .ok (r, s')) {next : List Call}
    (hnext : AllFit K s' next) : c.Undone K s s' r next := by
  cases c with
  | register type ifs spec => trivial
  | unmount dir flags => trivial
  | mount type dir flags data =>
    rintro rfl dir' flags' rest rfl
    rcases mount_cases h hc hrun with ⟨h0, -⟩ | ⟨-, -, hsome, -⟩
    · exact absurd h0 (by decide)
    · exact absurd hnext.1 hsome

/-- RUN: the law holds of a sequence iff every call of it meets the condition. -/
theorem lawful_iff : ∀ {calls : List Call} {s : State σ}, Ready s → (∀ c ∈ calls, c.InScope) →
    (Lawful K s calls ↔ AllFit K s calls)
  | [], _, _, _ => Iff.rfl
  | c :: next, s, h, hscope => by
    have hc := hscope c mem_cons_self
    obtain ⟨r, s', hrun, hready⟩ := run_ready h hc
    have ih := lawful_iff hready fun c hc => hscope c (mem_cons_of_mem _ hc)
    constructor
    · rintro ⟨r1, s1, hrun1, hans, -, hlaw⟩
      rw [hrun] at hrun1
      cases hrun1
      refine ⟨(answers_iff h hc hrun).mp hans, fun r2 s2 hrun2 => ?_⟩
      rw [hrun] at hrun2
      cases hrun2
      exact ih.mp hlaw
    · rintro ⟨hfits, hnext⟩
      have hall := hnext r s' hrun
      exact ⟨r, s', hrun, (answers_iff h hc hrun).mpr hfits, undone_of_fits h hc hrun hall, ih.mpr hall⟩

end

/-- From `vfs_init` on, the calls obey the law exactly when no unmount is made while something is
    mounted (and no mount fails for want of a module or an object). -/
theorem unmount_undoes_iff (K : Slab σ) {s₀ s : State σ} (hinit : vfsInit K s₀ = (0, s)) {calls : List Call}
    (hscope : ∀ c ∈ calls, c.InScope) : Lawful K s calls ↔ AllFit K s calls :=
  lawful_iff (init_ready hinit) hscope

/-! ### Mounting and unmounting once -/

/-- A slab that hands out consecutive addresses. -/
def counting : Slab ℕ where
  createCache := fun _ n => (0, n)
  alloc := fun _ n => (some n, n + 1)
  free := fun _ _ n => n

/-- The state before `vfs_init`. -/
def unset : State ℕ := ⟨fun _ => none, none, 1, ∅⟩

/-- A module of type `a` whose callbacks succeed. -/
def plain : Interfaces := ⟨some fun _ _ _ => some 1, some fun _ _ => 0⟩

theorem plain_works : plain.Works :=
  ⟨⟨_, rfl, fun _ _ _ => by simp⟩, ⟨_, rfl, fun _ _ => le_refl _⟩⟩

/-- Register it, mount it on `/`, unmount `/`. -/
def roundTrip : List Call := [.register [97] plain 0, .mount [97] [47] 0 0, .unmount [47] 0]

theorem roundTrip_scope : ∀ c ∈ roundTrip, c.InScope := by
  intro c hc
  simp only [roundTrip, mem_cons, not_mem_nil, or_false] at hc
  rcases hc with rfl | rfl | rfl
  · exact plain_works
  · simp [Call.InScope, delimiter]
  · simp [Call.InScope, delimiter]

theorem unmount_undoes_register_mount :
    Lawful counting (vfsInit counting unset).2 (roundTrip.take 2) ↔
      AllFit counting (vfsInit counting unset).2 (roundTrip.take 2) :=
  unmount_undoes_iff counting rfl fun c hc => roundTrip_scope c (List.mem_of_mem_take hc)

/-- What a sequence of calls returns. -/
def answers (K : Slab σ) : State σ → List Call → List ℤ
  | _, [] => []
  | s, c :: next =>
    match c.run K s with
    | .error _ => []
    | .ok (r, s') => r :: answers K s' next

/-- The unmount fails although the mount before it has succeeded. -/
theorem unmount_refused : answers counting (vfsInit counting unset).2 roundTrip = [0, 0, -1] ∧
    ¬Lawful counting (vfsInit counting unset).2 roundTrip := by
  refine ⟨by decide +kernel, fun h => ?_⟩
  have hinit : vfsInit counting unset = (0, (vfsInit counting unset).2) := rfl
  have hall := (lawful_iff (init_ready hinit) roundTrip_scope).mp h
  have h1 := hall.2 _ _ rfl
  have h2 := h1.2 _ _ rfl
  exact absurd h2.1 (by simp [Call.Fits, State.mounted])

end Advos.Vfs
