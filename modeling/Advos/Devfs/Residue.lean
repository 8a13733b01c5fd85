import Mathlib.Logic.Relation
import Advos.Devfs.Table

/-! What the calls leave behind: locks and the caller's state.

    Every exit of a call has its own `spin_unlock`, and two exits are wrong. `devfs_driver_putc` returns 0
    without one:

        spin_lock(&e->lock) ──▶ ret = _chr_ibuf_putc ──▶ ret < 0 : spin_unlock, return -1
                                                    └──▶ return 0                          (lock kept)

    and `devfs_read` marks its task BLOCKED before it has the list element to sleep on, so that it can return
    -1 with the task marked. -/

namespace Advos.Devfs
open Word RingBuf Function Relation
open Slab (charVal)
open Sched (TaskState)

variable {σ : Type*} {E : Env σ} {s s' : State σ} {index : ℤ} {proc e : ℕ}

/-- Locks that are free in `s` are free in `s'`. -/
structure Frees (s s' : State σ) : Prop where
  fs : s.lock = false → s'.lock = false
  entry : ∀ e, (s.entry e).lock = false → (s'.entry e).lock = false

theorem Frees.refl (s : State σ) : Frees s s := ⟨id, fun _ => id⟩

theorem Frees.trans {a b c : State σ} (h : Frees a b) (h' : Frees b c) : Frees a c :=
  ⟨h'.fs ∘ h.fs, fun e => h'.entry e ∘ h.entry e⟩

/-- Everything but the entry `e` keeps its lock, and `e` is not locked. -/
theorem Frees.setEntry (v : Entry) (hv : (s.entry e).lock = false → v.lock = false) :
    Frees s (s.setEntry e v) := by
  refine ⟨id, fun e' he' => ?_⟩
  change (update s.entry e v e').lock = false
  by_cases heq : e' = e
  · subst heq
    rw [update_self]
    exact hv he'
  · rwa [update_of_ne heq]

theorem Frees.setDevice (device : Device) : Frees s (s.setDevice e device) := Frees.setEntry _ id

/-- LOCKED SECTION: what is put into a locked entry and unlocked again. -/
theorem Frees.section (hlock : s.lockEntry e = some s') (device : Device) :
    Frees s ((s'.setDevice e device).unlockEntry e) := by
  obtain ⟨-, rfl⟩ := lockEntry_eq_some hlock
  rw [unlockEntry_setDevice]
  exact Frees.setEntry _ fun _ => rfl

/-! ### The calls -/

theorem spinLock_eq_some (h : s.spinLock = some s') : s.lock = false ∧ s' = { s with lock := true } := by
  rw [State.spinLock] at h
  split at h
  next => cases h
  next hfree => exact ⟨Bool.eq_false_iff.mpr hfree, (Option.some.inj h).symm⟩

theorem devfsRegister_frees {name : List UInt8} {type r : ℤ}
    (h : devfsRegister E name type proc s = some (r, s')) : Frees s s' := by
  rw [devfsRegister] at h
  split at h
  · cases h
    exact Frees.refl s
  obtain ⟨s1, hlock, h⟩ := Option.bind_eq_some_iff.mp h
  obtain ⟨-, rfl⟩ := spinLock_eq_some hlock
  split at h
  · cases h
    exact ⟨fun _ => rfl, fun _ => id⟩
  split at h <;> cases h
  · exact ⟨fun _ => rfl, fun _ => id⟩
  · exact ⟨fun _ => rfl, (Frees.setEntry _ fun _ => rfl).entry⟩

theorem devfsUnregister_frees {r : ℤ} (h : devfsUnregister E index proc s = some (r, s')) : Frees s s' := by
  rw [devfsUnregister] at h
  split at h
  · cases h
    exact Frees.refl s
  obtain ⟨s1, hlock, h⟩ := Option.bind_eq_some_iff.mp h
  obtain ⟨-, rfl⟩ := spinLock_eq_some hlock
  split at h
  · cases h
    exact ⟨fun _ => rfl, fun _ => id⟩
  split at h <;> cases h <;> exact ⟨fun _ => rfl, fun _ => id⟩

theorem devfsDriverWrite_frees {buf : ℕ → UInt8} {n : ℕ} {r : ℤ}
    (h : devfsDriverWrite index proc buf n s = some (r, s')) : Frees s s' := by
  rw [devfsDriverWrite] at h
  split at h
  · cases h
    exact Frees.refl s
  obtain ⟨s1, hlock, h⟩ := Option.bind_eq_some_iff.mp h
  cases h
  exact Frees.section hlock _

theorem devfsDriverGetc_frees {r : ℤ} (h : devfsDriverGetc index proc s = some (r, s')) : Frees s s' := by
  rw [devfsDriverGetc] at h
  split at h
  · cases h
    exact Frees.refl s
  obtain ⟨s1, hlock, h⟩ := Option.bind_eq_some_iff.mp h
  cases h
  exact Frees.section hlock _

theorem bmod_neg {x : ℕ} (hx : x < 256) : Int.bmod x 256 < 0 ↔ 128 ≤ x := by
  rw [Int.bmod_def]
  split <;> omega

theorem charVal_neg (c : UInt8) : charVal c < 0 ↔ 128 ≤ c.toNat := bmod_neg c.toNat_lt

/-- The put helper's result is negative for a full buffer, and for a negative `char`. -/
theorem chrIbufPutc_neg (dev : Device) (c : UInt8) :
    (chrIbufPutc dev (charVal c)).1 < 0 ↔ dev.ibuf.head = next bufsize dev.ibuf.tail ∨ 128 ≤ c.toNat := by
  rw [chrIbufPutc, fifoPutc, ← charVal_neg]
  by_cases hfull : dev.ibuf.head = next bufsize dev.ibuf.tail
  · simp [hfull]
  · simp [hfull]

/-- PUTC: the lock comes back exactly if the byte is refused, or taken for refused. -/
theorem devfsDriverPutc_frees (c : UInt8) : (∀ r s', devfsDriverPutc index proc c s = some (r, s') → Frees s s') ↔
    ∀ e, driverEntry s index proc = some e → (s.entry e).lock = false →
      (s.entry e).device.ibuf.head = next bufsize (s.entry e).device.ibuf.tail ∨ 128 ≤ c.toNat := by
  cases hentry : driverEntry s index proc with
  | none =>
    simp only [devfsDriverPutc, hentry]
    constructor
    · rintro - e he
      cases he
    · rintro - r s' h
      cases h
      exact Frees.refl s
  | some e =>
    cases hfree : (s.entry e).lock with
    | true =>
      have hspin : devfsDriverPutc index proc c s = none := by
        simp [devfsDriverPutc, hentry, lockEntry_of_taken hfree]
      simp only [hspin, Option.some.injEq]
      refine ⟨?_, fun _ r s' h => by cases h⟩
      rintro - e' rfl he'
      rw [hfree] at he'
      cases he'
    | false =>
      have hlock := lockEntry_of_free hfree
      simp only [devfsDriverPutc, hentry, hlock, Option.bind_eq_bind, Option.bind_some, Option.some.injEq]
      rw [device_lockEntry]
      constructor
      · rintro h e' rfl -
        rw [← chrIbufPutc_neg]
        by_contra hput
        have hkept := (h _ _ (if_neg hput)).entry e hfree
        simp [State.setDevice, State.setEntry] at hkept
      · intro h r s' hr
        rw [if_pos ((chrIbufPutc_neg _ _).mpr (h e rfl hfree))] at hr
        cases hr
        exact Frees.section hlock _

/-! ### Waiting for input -/

/-- The buffer is empty and there is a list element: from one test of the waiting loop to the next. -/
def Waits (E : Env σ) (t fd nbyte : ℕ) (s s' : State σ) : Prop :=
  ∃ s1, readRound E t fd nbyte s = .switches s1 ∧ s' = E.taskSwitch s1

/-- The other tasks give back the locks they take. -/
def Env.Quiet (E : Env σ) : Prop := ∀ s, Frees s (E.taskSwitch s)

section Read
variable {t fd nbyte : ℕ} {r : ℤ} {read : List UInt8}

theorem readRound_returns (h : readRound E t fd nbyte s = .returns r read s') : Frees s s' ∧
    (r = -1 → s'.task t = .blocked ∧
      chrIbufLength (s.entry (s.fildes fd).entry).device = 0 ∧ (E.listAlloc s.env).1 = none) := by
  rw [readRound] at h
  split at h
  · dsimp only at h
    split at h <;> cases h
    next hempty _ _ hnone =>
      exact ⟨⟨id, fun _ => id⟩, fun _ => ⟨update_self .., hempty, congrArg Prod.fst hnone⟩⟩
  · obtain ⟨rfl, -, rfl⟩ := Round.returns.inj h
    exact ⟨Frees.setDevice _, fun h => by omega⟩

theorem readRound_switches (h : readRound E t fd nbyte s = .switches s') : Frees s s' := by
  rw [readRound] at h
  split at h
  · dsimp only at h
    split at h <;> cases h
    exact ⟨id, fun _ => id⟩
  · simp only [reduceCtorEq] at h

/-- RUN: a wait that returns keeps the locks free; with -1 it returns from a round that found the buffer empty
    and got no list element. -/
theorem readRounds_returns (hE : E.Quiet) {k : ℕ} (h : readRounds E t fd nbyte k s = some (r, read, s')) :
    Frees s s' ∧ (r = -1 → s'.task t = .blocked ∧ ∃ s1, ReflTransGen (Waits E t fd nbyte) s s1 ∧
      chrIbufLength (s1.entry (s1.fildes fd).entry).device = 0 ∧ (E.listAlloc s1.env).1 = none) := by
  induction k generalizing s with
  | zero => cases h
  | succ k ih =>
    rw [readRounds] at h
    split at h
    next hround =>
      cases h
      obtain ⟨hfrees, hfail⟩ := readRound_returns hround
      exact ⟨hfrees, fun hr => ⟨(hfail hr).1, s, .refl, (hfail hr).2⟩⟩
    next s1 hround =>
      obtain ⟨hfrees, hfail⟩ := ih h
      refine ⟨(readRound_switches hround).trans ((hE s1).trans hfrees), fun hr => ?_⟩
      obtain ⟨hblocked, s2, hwaits, hs2⟩ := hfail hr
      exact ⟨hblocked, s2, .head ⟨s1, hround, rfl⟩ hwaits, hs2⟩

/-- A round that gets no list element returns -1 with the task marked. -/
theorem readRound_fails (t nbyte : ℕ) (hempty : chrIbufLength (s.entry (s.fildes fd).entry).device = 0)
    (hnone : (E.listAlloc s.env).1 = none) :
    ∃ s', readRound E t fd nbyte s = .returns (-1) [] s' ∧ s'.task t = .blocked := by
  have halloc : E.listAlloc (s.setTask t .blocked).env = (none, (E.listAlloc s.env).2) := Prod.ext hnone rfl
  rw [readRound, if_pos hempty]
  simp only [halloc]
  exact ⟨_, rfl, update_self ..⟩

theorem readRounds_of_waits {x : ℤ × List UInt8 × State σ} (h : ReflTransGen (Waits E t fd nbyte) s s')
    (hx : ∃ k, readRounds E t fd nbyte k s' = some x) : ∃ k, readRounds E t fd nbyte k s = some x := by
  induction h using ReflTransGen.head_induction_on with
  | refl => exact hx
  | head hwait _ ih =>
    obtain ⟨s1, hround, rfl⟩ := hwait
    obtain ⟨k, hk⟩ := ih
    exact ⟨k + 1, by rw [readRounds, hround, ← hk]⟩

end Read

/-! ### All calls -/

/-- The calls that take a lock or change the caller's state. -/
inductive Op
  | register (name : List UInt8) (type : ℤ) (proc : ℕ)
  | unregister (index : ℤ) (proc : ℕ)
  | driverPutc (index : ℤ) (proc : ℕ) (c : UInt8)
  | driverWrite (index : ℤ) (proc : ℕ) (buf : ℕ → UInt8) (n : ℕ)
  | driverGetc (index : ℤ) (proc : ℕ)
  | read (thisTask : Option ℕ) (fd nbyte : ℕ)

/-- What a call returns and leaves; a read waits for at most `k` rounds. -/
def Op.run (E : Env σ) (k : ℕ) (s : State σ) : Op → Option (ℤ × State σ)
  | register name type proc => devfsRegister E name type proc s
  | unregister index proc => devfsUnregister E index proc s
  | driverPutc index proc c => devfsDriverPutc index proc c s
  | driverWrite index proc buf n => devfsDriverWrite index proc buf n s
  | driverGetc index proc => devfsDriverGetc index proc s
  | read thisTask fd nbyte => (devfsRead E k thisTask fd nbyte s).map fun r => (r.1, r.2.2)

/-- The task whose state a failed call must not have changed. -/
def Op.caller : Op → Option ℕ
  | read thisTask _ _ => thisTask
  | _ => none

/-- Whenever the call returns, the locks that were free are free; and if a read returns -1, the state of
    its task is what it was. -/
def NoResidue (E : Env σ) (op : Op) (s : State σ) : Prop :=
  ∀ k r s', op.run E k s = some (r, s') → Frees s s' ∧ (r = -1 → ∀ t ∈ op.caller, s'.task t = s.task t)

/-- No byte below 128 is put into a buffer with room through `devfs_driver_putc`, and no read that waits is
    refused the list element (unless its task is marked BLOCKED already). -/
def Op.Clean (E : Env σ) (s : State σ) : Op → Prop
  | driverPutc index proc c => ∀ e, driverEntry s index proc = some e → (s.entry e).lock = false →
      (s.entry e).device.ibuf.head = next bufsize (s.entry e).device.ibuf.tail ∨ 128 ≤ c.toNat
  | read (some t) fd nbyte => s.task t = .blocked ∨
      (s.entry (s.fildes fd).entry).device.type ≠ devfsChar ∨
      ∀ s', Relation.ReflTransGen (Waits E t fd nbyte) s s' →
        chrIbufLength (s'.entry (s'.fildes fd).entry).device = 0 → (E.listAlloc s'.env).1 ≠ none
  | _ => True

/-- READ -/
theorem read_clean_iff (hE : E.Quiet) (t fd nbyte : ℕ) :
    NoResidue E (.read (some t) fd nbyte) s ↔ (Op.read (some t) fd nbyte).Clean E s := by
  by_cases htype : (s.entry (s.fildes fd).entry).device.type = devfsChar
  case neg =>
    refine ⟨fun _ => .inr (.inl htype), ?_⟩
    rintro - k r s' h
    simp only [Op.run, devfsRead, if_neg htype, Option.map_some, Option.some.injEq, Prod.mk.injEq] at h
    obtain ⟨-, rfl⟩ := h
    exact ⟨Frees.refl s, fun _ _ _ => rfl⟩
  have hrun : ∀ k, (Op.read (some t) fd nbyte).run E k s =
      (readRounds E t fd nbyte k s).map fun r => (r.1, r.2.2) := by
    intro k
    simp only [Op.run, devfsRead, if_pos htype]
  constructor
  · -- a refused list element is met after enough rounds, and leaves the task marked
    intro h
    by_contra hclean
    simp only [Op.Clean, not_or, not_not, not_forall] at hclean
    obtain ⟨hstate, -, s1, hwaits, hempty, hnone⟩ := hclean
    obtain ⟨s2, hround, hblocked⟩ := readRound_fails t nbyte hempty hnone
    obtain ⟨k, hk⟩ := readRounds_of_waits hwaits ⟨1, by rw [readRounds, hround]⟩
    have hkept := (h k (-1) s2 (by rw [hrun, hk]; rfl)).2 rfl t rfl
    exact hstate (hkept ▸ hblocked)
  · intro hclean k r s' h
    rw [hrun] at h
    obtain ⟨⟨r', read, s1⟩, hk, hx⟩ := Option.map_eq_some_iff.mp h
    cases hx
    obtain ⟨hfrees, hfail⟩ := readRounds_returns hE hk
    refine ⟨hfrees, fun hr t' ht' => ?_⟩
    cases ht'
    obtain ⟨hblocked, s2, hwaits, hempty, hnone⟩ := hfail hr
    rcases hclean with hstate | hchr | hsome
    · rw [hblocked, hstate]
    · exact absurd htype hchr
    · exact absurd hnone (hsome s2 hwaits hempty)

/-- The calls leave no lock and no mark behind exactly if they are clean. -/
theorem no_residue_iff (hE : E.Quiet) (op : Op) (s : State σ) : NoResidue E op s ↔ op.Clean E s := by
  have hother : ∀ {op : Op}, op.caller = none → (∀ k r s', op.run E k s = some (r, s') → Frees s s') →
      NoResidue E op s := by
    intro op hcaller h k r s' hrun
    refine ⟨h k r s' hrun, ?_⟩
    rintro - t ht
    rw [hcaller] at ht
    cases ht
  cases op with
  | register name type proc => exact ⟨fun _ => trivial, fun _ => hother rfl fun _ _ _ => devfsRegister_frees⟩
  | unregister index proc => exact ⟨fun _ => trivial, fun _ => hother rfl fun _ _ _ => devfsUnregister_frees⟩
  | driverWrite index proc buf n =>
    exact ⟨fun _ => trivial, fun _ => hother rfl fun _ _ _ => devfsDriverWrite_frees⟩
  | driverGetc index proc => exact ⟨fun _ => trivial, fun _ => hother rfl fun _ _ _ => devfsDriverGetc_frees⟩
  | driverPutc index proc c =>
    change _ ↔ ∀ e, _
    rw [← devfsDriverPutc_frees]
    exact ⟨fun h r s' hrun => (h 0 r s' hrun).1, fun h => hother rfl fun _ => h⟩
  | read thisTask fd nbyte =>
    cases thisTask with
    | some t => exact read_clean_iff hE t fd nbyte
    | none =>
      refine ⟨fun _ => trivial, fun _ => hother rfl ?_⟩
      rintro k r s' h
      cases h
      exact Frees.refl s

/-- One task, no memory left, and an empty character device of process 5 at index 0. -/
def starved : Env Unit := ⟨fun _ => (none, ()), fun _ _ => (), fun _ => (none, ()), id⟩

@[inherit_doc starved]
def oneDevice : State Unit where
  lock := false
  entries := fun i => if i = 0 then some 1 else none
  entry := fun _ => ⟨[], 0, ⟨devfsChar, ⟨fun _ => 0, 0, 0⟩, ⟨fun _ => 0, 0, 0⟩⟩, 5, false⟩
  fildes := fun _ => ⟨1, []⟩
  task := fun _ => .running
  procTask := fun _ => 0
  env := ()

theorem no_residue_iff_byte_above_127 : NoResidue starved (.driverPutc 0 5 200) oneDevice :=
  (no_residue_iff (fun s => Frees.refl s) _ _).mpr fun _ _ _ => .inr (by decide)

/-- A byte that is taken keeps the entry locked, and a read without memory leaves its task BLOCKED. -/
theorem residue_of_putc_and_read : ¬ NoResidue starved (.driverPutc 0 5 65) oneDevice ∧
    ¬ NoResidue starved (.read (some 3) 0 1) oneDevice := by
  constructor
  · intro h
    have hlock := (h 0 0 _ rfl).1.entry 1 rfl
    exact absurd hlock (by decide)
  · intro h
    have hstate := (h 1 (-1) _ rfl).2 rfl 3 rfl
    exact absurd hstate (by decide)

end Advos.Devfs
