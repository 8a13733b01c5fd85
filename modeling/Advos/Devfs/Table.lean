import Advos.Devfs.Fifo
import Advos.Sched.Kernel
import Advos.Slab.Create

/-! The device file system: its table of devices and the calls on them (`devfs.c`).

    A driver process registers a device and gets the index of its entry; the entries themselves are slab
    objects. The driver's calls name the index, readers and writers come through a file descriptor, which
    points to the entry:

        devfs.entries[0 .. 1023] ──▶ entry: name, device, owner, lock ◀── fildes->fsdata
                                            ▲
             devfs_driver_* (index, owner) ─┘ with the lock         devfs_read, devfs_write: without it

    A call that finds a lock taken spins forever and has no result: nobody else runs meanwhile. The only
    place where other tasks run is `task_switch` in `devfs_read`. -/

namespace Advos.Devfs
open Word RingBuf
open Slab (charVal kstrlcpy)
open Sched (TaskState)

/-- `DEVFS_MAXDEVS`. -/
def maxdevs : ℕ := 1024

/-- `PATH_MAX`. -/
def pathMax : ℕ := 1024

/-- `DEVFS_CHAR`. -/
def devfsChar : ℤ := 0

/-- `DEVFS_BLOCK`. -/
def devfsBlock : ℤ := 1

/-- `struct devfs_entry`. -/
structure Entry where
  name : List UInt8
  flags : ℤ
  device : Device
  proc : ℕ
  lock : Bool

/-- `fildes_t`: the entry in `fsdata`, and the tasks on the list at `head`. -/
structure Fildes where
  entry : ℕ
  head : List ℕ

/-- `devfs`, with what its calls read and write outside of it. The table has the indices 0 to 1023; what
    stands at the others is the memory around it. -/
structure State (σ : Type*) where
  lock : Bool
  entries : ℤ → Option ℕ
  entry : ℕ → Entry
  fildes : ℕ → Fildes
  /-- The states of the tasks. -/
  task : ℕ → TaskState
  /-- `proc->task`. -/
  procTask : ℕ → ℕ
  env : σ

/-- What devfs calls: the slab caches of its entries and of `task_list_t`, and `task_switch`, which lets the
    other tasks run until the caller is resumed. -/
structure Env (σ : Type*) where
  entryAlloc : σ → Option ℕ × σ
  entryFree : ℕ → σ → σ
  listAlloc : σ → Option ℕ × σ
  taskSwitch : State σ → State σ

namespace State
variable {σ : Type*} (s : State σ)

/-- `spin_lock(&fs->lock)`. -/
def spinLock : Option (State σ) := if s.lock then none else some { s with lock := true }

/-- `spin_unlock(&fs->lock)`. -/
def spinUnlock : State σ := { s with lock := false }

def setEntry (e : ℕ) (v : Entry) : State σ := { s with entry := Function.update s.entry e v }

def setDevice (e : ℕ) (device : Device) : State σ := s.setEntry e { s.entry e with device := device }

/-- `spin_lock(&e->lock)`. -/
def lockEntry (e : ℕ) : Option (State σ) :=
  if (s.entry e).lock then none else some (s.setEntry e { s.entry e with lock := true })

/-- `spin_unlock(&e->lock)`. -/
def unlockEntry (e : ℕ) : State σ := s.setEntry e { s.entry e with lock := false }

/-- `t->state = state`. -/
def setTask (t : ℕ) (state : TaskState) : State σ := { s with task := Function.update s.task t state }

end State

variable {σ : Type*}

/-! ### Registration -/

/-- The search for a NULL entry, from index `i` on. -/
def freeSlot (entries : ℤ → Option ℕ) : ℕ → ℤ → Option ℤ
  | 0, _ => none
  | k + 1, i => if entries i = none then some i else freeSlot entries k (i + 1)

/-- The entry `devfs_register` fills in; the buffers of the device are left as they are. -/
def newEntry (name : List UInt8) (type : ℤ) (proc : ℕ) (old : Entry) : Entry :=
  ⟨kstrlcpy name pathMax, 0, { old.device with type := type }, proc, false⟩

/-- `devfs_register`. -/
def devfsRegister (E : Env σ) (name : List UInt8) (type : ℤ) (proc : ℕ) (s : State σ) :
    Option (ℤ × State σ) :=
  if type ≠ devfsChar ∧ type ≠ devfsBlock then some (-1, s)
  else do
    let s ← s.spinLock
    match freeSlot s.entries maxdevs 0 with
    | none => some (-1, s.spinUnlock)
    | some i =>
      match E.entryAlloc s.env with
      | (none, env) => some (-1, { s with env := env }.spinUnlock)
      | (some e, env) =>
        let s := { s with env := env }.setEntry e (newEntry name type proc (s.entry e))
        let s := { s with entries := Function.update s.entries i (some e) }
        some (i, s.spinUnlock)

/-- `devfs_unregister`. -/
def devfsUnregister (E : Env σ) (index : ℤ) (proc : ℕ) (s : State σ) : Option (ℤ × State σ) :=
  if index ≥ maxdevs then some (-1, s)
  else do
    let s ← s.spinLock
    match s.entries index with
    | none => some (-1, s.spinUnlock)
    | some e =>
      if proc ≠ (s.entry e).proc then some (-1, s.spinUnlock)
      else
        let s := { s with env := E.entryFree e s.env }
        let s := { s with entries := Function.update s.entries index none }
        some (0, s.spinUnlock)

/-! ### The driver's calls -/

/-- The entry a driver call acts on: the index is checked from above, the caller has to be the owner. -/
def driverEntry (s : State σ) (index : ℤ) (proc : ℕ) : Option ℕ :=
  if index ≥ maxdevs then none
  else
    match s.entries index with
    | none => none
    | some e => if proc ≠ (s.entry e).proc then none else some e

/-- The rounds of a loop to `(ssize_t)n`, where `n` is a `size_t`: none if the sign bit is set. -/
def rounds (n : ℕ) : ℕ := if n < 2 ^ 63 then n else 0

/-- The `n` bytes at `buf`. -/
def bytes (buf : ℕ → UInt8) (n : ℕ) : List UInt8 := (List.range (rounds n)).map buf

/-- Put bytes until one is refused: how many were not, and the device. The bytes are `char`s. -/
def putBytes (putc : Device → ℤ → ℤ × Device) : List UInt8 → Device → ℕ × Device
  | [], dev => (0, dev)
  | c :: cs, dev =>
    if (putc dev (charVal c)).1 < 0 then (0, (putc dev (charVal c)).2)
    else ((putBytes putc cs (putc dev (charVal c)).2).1 + 1, (putBytes putc cs (putc dev (charVal c)).2).2)

/-- `devfs_driver_putc`; the lock is released only if the byte is refused. -/
def devfsDriverPutc (index : ℤ) (proc : ℕ) (c : UInt8) (s : State σ) : Option (ℤ × State σ) :=
  match driverEntry s index proc with
  | none => some (-1, s)
  | some e => do
    let s ← s.lockEntry e
    let put := chrIbufPutc (s.entry e).device (charVal c)
    let s := s.setDevice e put.2
    if put.1 < 0 then some (-1, s.unlockEntry e) else some (0, s)

/-- `devfs_driver_write`. -/
def devfsDriverWrite (index : ℤ) (proc : ℕ) (buf : ℕ → UInt8) (n : ℕ) (s : State σ) :
    Option (ℤ × State σ) :=
  match driverEntry s index proc with
  | none => some (-1, s)
  | some e => do
    let s ← s.lockEntry e
    let put := putBytes chrIbufPutc (bytes buf n) (s.entry e).device
    some (put.1, (s.setDevice e put.2).unlockEntry e)

/-- `devfs_driver_getc`. -/
def devfsDriverGetc (index : ℤ) (proc : ℕ) (s : State σ) : Option (ℤ × State σ) :=
  match driverEntry s index proc with
  | none => some (-1, s)
  | some e => do
    let s ← s.lockEntry e
    let got := chrObufGetc (s.entry e).device
    some (got.1, (s.setDevice e got.2).unlockEntry e)

/-! ### The users' calls -/

/-- The loop of `devfs_read` that empties the input buffer into the user's. -/
def takeBytes : ℕ → Device → List UInt8 × Device
  | 0, dev => ([], dev)
  | k + 1, dev =>
    if (chrIbufGetc dev).1 < 0 then ([], (chrIbufGetc dev).2)
    else (UInt8.ofInt (chrIbufGetc dev).1 :: (takeBytes k (chrIbufGetc dev).2).1,
      (takeBytes k (chrIbufGetc dev).2).2)

/-- How `devfs_read` goes on from the test of its waiting loop: it returns, or it calls `task_switch`. -/
inductive Round (σ : Type*)
  | returns (ret : ℤ) (read : List UInt8) (s : State σ)
  | switches (s : State σ)

/-- One pass of `devfs_read` from the test of the waiting loop on. -/
def readRound (E : Env σ) (t fd nbyte : ℕ) (s : State σ) : Round σ :=
  let e := (s.fildes fd).entry
  if chrIbufLength (s.entry e).device = 0 then
    let s := s.setTask t .blocked
    match E.listAlloc s.env with
    | (none, env) => .returns (-1) [] { s with env := env }
    | (some _, env) =>
      let fildes := { s.fildes fd with head := t :: (s.fildes fd).head }
      .switches { s with env := env, fildes := Function.update s.fildes fd fildes }
  else
    let taken := takeBytes (rounds nbyte) (s.entry e).device
    .returns taken.1.length taken.1 (s.setDevice e taken.2)

/-- The waiting loop, of at most `k` rounds. -/
def readRounds (E : Env σ) (t fd nbyte : ℕ) : ℕ → State σ → Option (ℤ × List UInt8 × State σ)
  | 0, _ => none
  | k + 1, s =>
    match readRound E t fd nbyte s with
    | .returns ret read s => some (ret, read, s)
    | .switches s => readRounds E t fd nbyte k (E.taskSwitch s)

/-- `devfs_read`, if it returns within `k` rounds: the result, the bytes read, and the state. The calling
    task is `this_task()`. -/
def devfsRead (E : Env σ) (k : ℕ) (thisTask : Option ℕ) (fd nbyte : ℕ) (s : State σ) :
    Option (ℤ × List UInt8 × State σ) :=
  match thisTask with
  | none => some (-1, [], s)
  | some t =>
    if (s.entry (s.fildes fd).entry).device.type = devfsChar then readRounds E t fd nbyte k s
    else some (-1, [], s)

/-- `devfs_write`. -/
def devfsWrite (thisTask : Option ℕ) (fd : ℕ) (buf : ℕ → UInt8) (nbyte : ℕ) (s : State σ) : ℤ × State σ :=
  match thisTask with
  | none => (-1, s)
  | some _ =>
    let e := (s.fildes fd).entry
    if (s.entry e).device.type = devfsChar then
      if chrObufAvailable (s.entry e).device = 0 then (0, s)
      else
        let put := putBytes chrObufPutc (bytes buf nbyte) (s.entry e).device
        let s := s.setDevice e put.2
        (put.1, s.setTask (s.procTask (s.entry e).proc) .ready)
    else (-1, s)

/-! ### What the calls find -/

section Rules
variable {s s' : State σ} {index : ℤ} {proc e : ℕ}

theorem freeSlot_eq_some {entries : ℤ → Option ℕ} {k : ℕ} {i j : ℤ} (h : freeSlot entries k i = some j) :
    i ≤ j ∧ j < i + k ∧ entries j = none ∧ ∀ l, i ≤ l → l < j → entries l ≠ none := by
  induction k generalizing i with
  | zero => cases h
  | succ k ih =>
    rw [freeSlot] at h
    split at h
    · cases h
      exact ⟨le_refl _, by omega, ‹_›, fun l hl hlt => by omega⟩
    · obtain ⟨hle, hlt, hnone, hbefore⟩ := ih h
      refine ⟨by omega, by omega, hnone, fun l hl hlj => ?_⟩
      rcases eq_or_lt_of_le hl with rfl | hl
      · assumption
      · exact hbefore l hl hlj

theorem freeSlot_eq_none {entries : ℤ → Option ℕ} {k : ℕ} {i : ℤ} :
    freeSlot entries k i = none ↔ ∀ l, i ≤ l → l < i + k → entries l ≠ none := by
  induction k generalizing i with
  | zero => exact ⟨fun _ l hl hlt => by omega, fun _ => rfl⟩
  | succ k ih =>
    rw [freeSlot]
    split
    next hnone => exact ⟨fun h => (by cases h), fun h => absurd hnone (h i (le_refl i) (by omega))⟩
    next hsome =>
      rw [ih]
      refine ⟨fun h l hl hlt => ?_, fun h l hl hlt => h l (by omega) (by omega)⟩
      rcases eq_or_lt_of_le hl with rfl | hl
      · exact hsome
      · exact h l hl (by omega)

/-- What a registration at index `i` leaves. -/
def registered (E : Env σ) (name : List UInt8) (type : ℤ) (proc : ℕ) (i : ℤ) (e : ℕ) (s : State σ) : State σ :=
  { s with
    lock := false, env := (E.entryAlloc s.env).2, entries := Function.update s.entries i (some e)
    entry := Function.update s.entry e (newEntry name type proc (s.entry e)) }

/-- A device is registered at the first free index, if there is memory for its entry. -/
structure Registers (E : Env σ) (type : ℤ) (s : State σ) (i : ℤ) (e : ℕ) : Prop where
  type : type = devfsChar ∨ type = devfsBlock
  lock : s.lock = false
  slot : freeSlot s.entries maxdevs 0 = some i
  entry : (E.entryAlloc s.env).1 = some e

section Register
variable {E : Env σ} {name : List UInt8} {type i r : ℤ}

theorem Registers.slot_free (h : Registers E type s i e) : 0 ≤ i ∧ i < maxdevs ∧ s.entries i = none := by
  obtain ⟨h0, hlt, hnone, -⟩ := freeSlot_eq_some h.slot
  exact ⟨h0, by simpa using hlt, hnone⟩

theorem Registers.returns (h : Registers E type s i e) :
    devfsRegister E name type proc s = some (i, registered E name type proc i e s) := by
  have hlock : s.spinLock = some { s with lock := true } := by
    rw [State.spinLock, h.lock, if_neg (by simp)]
  have halloc : E.entryAlloc s.env = (some e, (E.entryAlloc s.env).2) := Prod.ext h.entry rfl
  rw [devfsRegister, if_neg (by have := h.type; tauto), hlock]
  simp only [Option.bind_eq_bind, Option.bind_some, h.slot]
  rw [halloc]
  rfl

theorem devfsRegister_eq_some (h : devfsRegister E name type proc s = some (r, s')) :
    (r = -1 ∧ s'.entries = s.entries ∧ s'.entry = s.entry) ∨
      ∃ e, Registers E type s r e ∧ s' = registered E name type proc r e s := by
  by_cases htype : type ≠ devfsChar ∧ type ≠ devfsBlock
  · rw [devfsRegister, if_pos htype] at h
    cases h
    exact .inl ⟨rfl, rfl, rfl⟩
  cases hlock : s.lock with
  | true => simp [devfsRegister, htype, State.spinLock, hlock] at h
  | false =>
    have hspin : s.spinLock = some { s with lock := true } := by
      rw [State.spinLock, hlock, if_neg (by simp)]
    cases hslot : freeSlot s.entries maxdevs 0 with
    | none =>
      rw [devfsRegister, if_neg htype, hspin] at h
      simp only [Option.bind_eq_bind, Option.bind_some, hslot] at h
      cases h
      exact .inl ⟨rfl, rfl, rfl⟩
    | some i =>
      cases hentry : (E.entryAlloc s.env).1 with
      | none =>
        have halloc : E.entryAlloc s.env = (none, (E.entryAlloc s.env).2) := Prod.ext hentry rfl
        rw [devfsRegister, if_neg htype, hspin] at h
        simp only [Option.bind_eq_bind, Option.bind_some, hslot] at h
        rw [halloc] at h
        cases h
        exact .inl ⟨rfl, rfl, rfl⟩
      | some e =>
        have hreg : Registers E type s i e := ⟨by tauto, hlock, hslot, hentry⟩
        rw [hreg.returns] at h
        cases h
        exact .inr ⟨e, hreg, rfl⟩

end Register

theorem driverEntry_eq_some (h : driverEntry s index proc = some e) :
    index < maxdevs ∧ s.entries index = some e ∧ (s.entry e).proc = proc := by
  rw [driverEntry] at h
  split at h
  · cases h
  cases hentry : s.entries index with
  | none => simp [hentry] at h
  | some e' =>
    simp only [hentry, ite_not, Option.ite_none_right_eq_some, Option.some.injEq] at h
    obtain ⟨rfl, rfl⟩ := h
    exact ⟨by omega, rfl, rfl⟩

theorem lockEntry_eq_some (h : s.lockEntry e = some s') :
    (s.entry e).lock = false ∧ s' = s.setEntry e { s.entry e with lock := true } := by
  rw [State.lockEntry] at h
  split at h
  next => cases h
  next hfree => exact ⟨Bool.eq_false_iff.mpr hfree, (Option.some.inj h).symm⟩

theorem unlockEntry_setDevice (device : Device) :
    ((s.setEntry e { s.entry e with lock := true }).setDevice e device).unlockEntry e =
      s.setEntry e { s.entry e with device := device, lock := false } := by
  simp [State.setDevice, State.unlockEntry, State.setEntry]

theorem lockEntry_of_free (h : (s.entry e).lock = false) :
    s.lockEntry e = some (s.setEntry e { s.entry e with lock := true }) := by
  rw [State.lockEntry, h, if_neg (by simp)]

theorem device_lockEntry : ((s.setEntry e { s.entry e with lock := true }).entry e).device =
    (s.entry e).device := by
  simp [State.setEntry]

variable {buf : ℕ → UInt8}

theorem lockEntry_of_taken (h : (s.entry e).lock = true) : s.lockEntry e = none := by
  rw [State.lockEntry, if_pos h]

end Rules

end Advos.Devfs
