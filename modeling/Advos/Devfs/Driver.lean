import Advos.Devfs.Table

/-! The system call of the drivers (`sysdriver.c`), and the library above it (`libadvos.c`).

    A device handle passes through three layers on its way to the driver, which then sends it back with every
    byte:

        devfs_register ── i ──▶ _register_device ── 0 ──▶ driver_register_device ──▶ driver
        devfs.entries[dev] ◀── devfs_driver_* ◀── _msg ◀── driver_putc(dev, c) ◀─────────┘

    `_register_device` returns 0 for every device that could be registered, whatever its index. -/

namespace Advos.Devfs
open Word

variable {σ : Type*}

/-- `this_task()`, as far as the call looks at it: its process, and if that has a `vmem`. -/
structure Caller where
  proc : Option ℕ
  vmem : Bool

/-- `sysdriver_msg_t`. -/
structure Msg where
  type : ℤ
  dev : ℤ
  c : UInt8
  buf : ℕ → UInt8
  nbytes : ℕ

/-- The requests that reach devfs, with their arguments. -/
inductive Request
  | regDev (name : List UInt8) (type : ℤ)
  | msg (m : Msg)

/-- `DRIVER_DEVICE_CHAR` and `DRIVER_DEVICE_BLOCK`, as devfs names them. -/
def deviceType (type : ℤ) : Option ℤ :=
  if type = 0 then some devfsChar else if type = 1 then some devfsBlock else none

/-- `_register_device`. -/
def registerDevice (E : Env σ) (t : Caller) (name : List UInt8) (type : ℤ) (s : State σ) :
    Option (ℤ × State σ) :=
  match t.proc with
  | none => some (-1, s)
  | some proc =>
    if t.vmem = false then some (-1, s)
    else
      match deviceType type with
      | none => some (-1, s)
      | some type => do
        let r ← devfsRegister E name type proc s
        if r.1 < 0 then some (-1, r.2) else some (0, r.2)

/-- `_msg`; the types are `SYSDRIVER_MSG_PUTC`, `_WRITE` and `_GETC`. -/
def msg (t : Caller) (m : Msg) (s : State σ) : Option (ℤ × State σ) :=
  match t.proc with
  | none => some (-1, s)
  | some proc =>
    if m.type = 0 then devfsDriverPutc m.dev proc m.c s
    else if m.type = 3 then (devfsDriverWrite m.dev proc m.buf m.nbytes s).map fun r => (wrap32 r.1, r.2)
    else if m.type = 1 then devfsDriverGetc m.dev proc s
    else some (-1, s)

/-- `sys_driver`. -/
def sysDriver (E : Env σ) (thisTask : Option Caller) (request : Request) (s : State σ) :
    Option (ℤ × State σ) :=
  match thisTask with
  | none => some (-1, s)
  | some t =>
    if t.proc = none then some (-1, s)
    else
      match request with
      | .regDev name type => registerDevice E t name type s
      | .msg m => msg t m s

/-- `driver_register_device`. -/
def driverRegisterDevice (E : Env σ) (t : Caller) (name : List UInt8) (type : ℤ) (s : State σ) :
    Option (ℤ × State σ) :=
  sysDriver E (some t) (.regDev name type) s

/-- `driver_putc`. -/
def driverPutc (E : Env σ) (t : Caller) (dev c : ℤ) (s : State σ) : Option (ℤ × State σ) :=
  sysDriver E (some t) (.msg ⟨0, dev, UInt8.ofInt c, fun _ => 0, 0⟩) s

/-- `driver_write`. -/
def driverWrite (E : Env σ) (t : Caller) (dev : ℤ) (buf : ℕ → UInt8) (nr : ℕ) (s : State σ) :
    Option (ℤ × State σ) :=
  sysDriver E (some t) (.msg ⟨3, dev, 0, buf, nr⟩) s

/-- `driver_getc`. -/
def driverGetc (E : Env σ) (t : Caller) (dev : ℤ) (s : State σ) : Option (ℤ × State σ) :=
  sysDriver E (some t) (.msg ⟨1, dev, 0, fun _ => 0, 0⟩) s

/-! ### Handles -/

section Handles
variable {E : Env σ} {s s' : State σ} {t : Caller} {name : List UInt8} {type r i : ℤ} {proc e : ℕ}

/-- Nothing but the entry `e` is changed, and that keeps its owner. -/
def ChangesOnly (e : ℕ) (s : State σ) (x : Option (ℤ × State σ)) : Prop :=
  ∀ r s', x = some (r, s') → ∃ v : Entry, v.proc = (s.entry e).proc ∧ s' = s.setEntry e v

/-- The calls of the process with the handle `dev` act on the entry `e` and on no other. -/
structure Drives (E : Env σ) (t : Caller) (proc : ℕ) (dev : ℤ) (e : ℕ) (s : State σ) : Prop where
  entry : driverEntry s dev proc = some e
  putc : ∀ c, ChangesOnly e s (driverPutc E t dev c s)
  write : ∀ buf nr, ChangesOnly e s (driverWrite E t dev buf nr s)
  getc : ChangesOnly e s (driverGetc E t dev s)

theorem setEntry_setEntry (v w : Entry) : (s.setEntry e v).setEntry e w = s.setEntry e w := by
  simp [State.setEntry]

variable {dev : ℤ}

theorem devfsDriverPutc_changes {c : UInt8} (h : driverEntry s dev proc = some e) :
    ChangesOnly e s (devfsDriverPutc dev proc c s) := by
  intro r s' hr
  simp only [devfsDriverPutc, h] at hr
  obtain ⟨s1, hlock, hr⟩ := Option.bind_eq_some_iff.mp hr
  obtain ⟨-, rfl⟩ := lockEntry_eq_some hlock
  split at hr <;> cases hr
  · rw [unlockEntry_setDevice]
    refine ⟨_, ?_, rfl⟩
    rfl
  · simp only [State.setDevice, setEntry_setEntry]
    exact ⟨_, by simp [State.setEntry], rfl⟩

theorem devfsDriverWrite_changes {buf : ℕ → UInt8} {n : ℕ} (h : driverEntry s dev proc = some e) :
    ChangesOnly e s (devfsDriverWrite dev proc buf n s) := by
  intro r s' hr
  simp only [devfsDriverWrite, h] at hr
  obtain ⟨s1, hlock, hr⟩ := Option.bind_eq_some_iff.mp hr
  obtain ⟨-, rfl⟩ := lockEntry_eq_some hlock
  cases hr
  rw [unlockEntry_setDevice]
  refine ⟨_, ?_, rfl⟩
  rfl

theorem devfsDriverGetc_changes (h : driverEntry s dev proc = some e) :
    ChangesOnly e s (devfsDriverGetc dev proc s) := by
  intro r s' hr
  simp only [devfsDriverGetc, h] at hr
  obtain ⟨s1, hlock, hr⟩ := Option.bind_eq_some_iff.mp hr
  obtain ⟨-, rfl⟩ := lockEntry_eq_some hlock
  cases hr
  rw [unlockEntry_setDevice]
  refine ⟨_, ?_, rfl⟩
  rfl

theorem drives (ht : t.proc = some proc) (h : driverEntry s dev proc = some e) :
    Drives E t proc dev e s := by
  refine ⟨h, fun c => ?_, fun buf nr => ?_, ?_⟩
  · simp only [driverPutc, sysDriver, msg, ht]
    exact devfsDriverPutc_changes h
  · intro r s' hr
    simp only [driverWrite, sysDriver, msg, ht] at hr
    obtain ⟨x, hx, heq⟩ := Option.map_eq_some_iff.mp hr
    cases heq
    exact devfsDriverWrite_changes h x.1 x.2 hx
  · simp only [driverGetc, sysDriver, msg, ht]
    exact devfsDriverGetc_changes h

/-- The result `r` is the handle of the new device: the entry just allocated, at an index that was free, driven
    by the caller. -/
def HandleRight (E : Env σ) (t : Caller) (name : List UInt8) (type : ℤ) (s : State σ) : Prop :=
  ∀ r s', driverRegisterDevice E t name type s = some (r, s') → 0 ≤ r →
    ∃ proc e, t.proc = some proc ∧ (E.entryAlloc s.env).1 = some e ∧ s.entries r = none ∧
      (s'.entry e).name = Slab.kstrlcpy name pathMax ∧ deviceType type = some (s'.entry e).device.type ∧
      Drives E t proc r e s'

/-- The call cannot register anything: no process or address space, no such type, no free index, no memory for
    an entry, or a lock to wait for. -/
def Refused (E : Env σ) (t : Caller) (type : ℤ) (s : State σ) : Prop :=
  t.proc = none ∨ t.vmem = false ∨ deviceType type = none ∨ s.lock = true ∨
    (∀ i : ℤ, 0 ≤ i → i < maxdevs → s.entries i ≠ none) ∨ (E.entryAlloc s.env).1 = none

theorem deviceType_ok {type' : ℤ} (h : deviceType type = some type') :
    type' = devfsChar ∨ type' = devfsBlock := by
  rw [deviceType] at h
  split at h
  · cases h
    exact .inl rfl
  split at h <;> cases h
  exact .inr rfl

theorem registers_of_not_refused (h : ¬ Refused E t type s) : ∃ proc type' i e, t.proc = some proc ∧
    t.vmem = true ∧ deviceType type = some type' ∧ Registers E type' s i e := by
  simp only [Refused, not_or] at h
  obtain ⟨hproc, hvmem, htype, hlock, hslots, he⟩ := h
  have hslot : freeSlot s.entries maxdevs 0 ≠ none := by
    rw [ne_eq, freeSlot_eq_none, zero_add]
    exact hslots
  obtain ⟨proc, hproc⟩ := Option.ne_none_iff_exists'.mp hproc
  obtain ⟨type', htype⟩ := Option.ne_none_iff_exists'.mp htype
  obtain ⟨i, hi⟩ := Option.ne_none_iff_exists'.mp hslot
  obtain ⟨e, he⟩ := Option.ne_none_iff_exists'.mp he
  exact ⟨proc, type', i, e, hproc, by simpa using hvmem, htype,
    deviceType_ok htype, by simpa using hlock, hi, he⟩

theorem driverRegisterDevice_ok {type' : ℤ} (ht : t.proc = some proc) (hvmem : t.vmem = true)
    (htype : deviceType type = some type') (h : Registers E type' s i e) :
    driverRegisterDevice E t name type s = some (0, registered E name type' proc i e s) := by
  have hpos : ¬ i < 0 := not_lt.mpr h.slot_free.1
  simp only [driverRegisterDevice, sysDriver, registerDevice, ht, hvmem, htype, h.returns]
  simp [hpos]

theorem driverEntry_registered (h : Registers E type s i e) :
    driverEntry (registered E name type proc i e s) i proc = some e := by
  obtain ⟨-, hlt, -⟩ := h.slot_free
  rw [driverEntry, if_neg (by omega)]
  simp [registered, newEntry]

theorem driverRegisterDevice_nonneg (h : driverRegisterDevice E t name type s = some (r, s')) (hr : 0 ≤ r) :
    ¬ Refused E t type s := by
  intro hrefused
  rw [driverRegisterDevice, sysDriver] at h
  cases hproc : t.proc with
  | none => simp [hproc] at h; omega
  | some proc =>
    simp only [hproc, reduceCtorEq, if_false, registerDevice] at h
    split at h
    · cases h; omega
    next hvmem =>
      cases htype : deviceType type with
      | none => simp only [htype] at h; cases h; omega
      | some type' =>
        simp only [htype] at h
        obtain ⟨x, hx, h⟩ := Option.bind_eq_some_iff.mp h
        split at h <;> cases h
        · omega
        rcases devfsRegister_eq_some hx with ⟨hneg, -⟩ | ⟨e, hreg, -⟩
        · omega
        obtain ⟨h0, hlt, hnone⟩ := hreg.slot_free
        rcases hrefused with h | h | h | h | h | h
        · rw [hproc] at h; cases h
        · exact hvmem h
        · rw [htype] at h; cases h
        · rw [hreg.lock] at h; cases h
        · exact h _ h0 hlt hnone
        · rw [hreg.entry] at h; cases h

/-- A handle is right exactly if the registration is refused or index 0 was free. -/
theorem handle_right_iff (t : Caller) (name : List UInt8) (type : ℤ) (s : State σ) :
    HandleRight E t name type s ↔ Refused E t type s ∨ s.entries 0 = none := by
  constructor
  · intro h
    by_contra hcontra
    obtain ⟨hrefused, hzero⟩ := not_or.mp hcontra
    obtain ⟨proc, type', i, e, hproc, hvmem, htype, hreg⟩ := registers_of_not_refused hrefused
    obtain ⟨-, -, -, -, hnone, -⟩ := h 0 _ (driverRegisterDevice_ok hproc hvmem htype hreg) (le_refl 0)
    exact hzero hnone
  · intro h r s' hr hpos
    have hrefused := driverRegisterDevice_nonneg hr hpos
    have hzero := h.resolve_left hrefused
    obtain ⟨proc, type', i, e, hproc, hvmem, htype, hreg⟩ := registers_of_not_refused hrefused
    have hi : i = 0 := by
      obtain ⟨h0, -, -, hbefore⟩ := freeSlot_eq_some hreg.slot
      by_contra hne
      exact hbefore 0 (le_refl 0) (by omega) hzero
    subst hi
    rw [driverRegisterDevice_ok hproc hvmem htype hreg] at hr
    cases hr
    refine ⟨proc, e, hproc, hreg.entry, hzero, ?_, ?_, drives hproc (driverEntry_registered hreg)⟩
    · simp [registered, newEntry]
    · simp [registered, newEntry, htype]

end Handles

/-- A slab of entries that hands out 1, 2, 3 and so on, and the state before the first device. -/
def counting : Env ℕ := ⟨fun n => (some (n + 1), n + 1), fun _ n => n, fun n => (none, n), id⟩

@[inherit_doc counting]
def noDevices : State ℕ where
  lock := false
  entries := fun _ => none
  entry := fun _ => ⟨[], 0, ⟨devfsChar, ⟨fun _ => 0, 0, 0⟩, ⟨fun _ => 0, 0, 0⟩⟩, 0, false⟩
  fildes := fun _ => ⟨0, []⟩
  task := fun _ => .running
  procTask := fun _ => 0
  env := 0

/-- The driver of the second device gets the handle of the first, which is not even its own. -/
theorem second_handle_wrong : ∃ s, driverRegisterDevice counting ⟨some 5, true⟩ [97] 0 noDevices = some (0, s) ∧
    ¬ HandleRight counting ⟨some 6, true⟩ [98] 0 s := by
  refine ⟨_, rfl, fun h => ?_⟩
  obtain ⟨-, -, -, -, hnone, -⟩ := h 0 _ rfl (le_refl 0)
  exact absurd hnone (by decide)

end Advos.Devfs
