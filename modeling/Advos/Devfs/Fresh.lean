import Mathlib.Logic.Relation
import Advos.Devfs.Driver
import Advos.Schemes.Run

/-! What a newly registered device contains.

    `devfs_register` does not touch the buffers of the slab object it gets, and the slab does not clear an
    object that is used again:

        register ──▶ e ──▶ bytes ──▶ unregister ──▶ register ──▶ the same e, with the bytes

    So a new device is empty only as far as every object was empty when it went back to the slab, and nothing
    is put into it while it is there. The steps are the calls, where a read is cut at its task switches; between
    them the rest of the kernel may change everything that is not devfs. -/

namespace Advos.Devfs
open Word RingBuf Function

variable {σ : Type*} {E : Env σ} {s s' : State σ} {index : ℤ} {proc e : ℕ}

/-- Both buffers are empty. -/
def Device.Empty (dev : Device) : Prop := dev.ibuf.head = dev.ibuf.tail ∧ dev.obuf.head = dev.obuf.tail

/-- The entry is in the table. -/
def Registered (s : State σ) (e : ℕ) : Prop := ∃ i : ℤ, 0 ≤ i ∧ i < maxdevs ∧ s.entries i = some e

/-- What happens in a history. -/
inductive Event (σ : Type*)
  | register (name : List UInt8) (type : ℤ) (proc : ℕ)
  | unregister (index : ℤ) (proc : ℕ)
  | driverPutc (index : ℤ) (proc : ℕ) (c : UInt8)
  | driverWrite (index : ℤ) (proc : ℕ) (buf : ℕ → UInt8) (n : ℕ)
  | driverGetc (index : ℤ) (proc : ℕ)
  /-- A read up to its return or the next task switch. -/
  | read (t fd nbyte : ℕ)
  | write (thisTask : Option ℕ) (fd : ℕ) (buf : ℕ → UInt8) (nbyte : ℕ)
  /-- Descriptors are opened, tasks scheduled, other slab caches used: up to the state `s`. -/
  | elsewhere (s : State σ)

def Round.state : Round σ → State σ
  | returns _ _ s => s
  | switches s => s

/-- The state an event leaves, if it comes to an end. -/
def Event.after (E : Env σ) (s : State σ) : Event σ → Option (State σ)
  | register name type proc => (devfsRegister E name type proc s).map Prod.snd
  | unregister index proc => (devfsUnregister E index proc s).map Prod.snd
  | driverPutc index proc c => (devfsDriverPutc index proc c s).map Prod.snd
  | driverWrite index proc buf n => (devfsDriverWrite index proc buf n s).map Prod.snd
  | driverGetc index proc => (devfsDriverGetc index proc s).map Prod.snd
  | read t fd nbyte => some (readRound E t fd nbyte s).state
  | write thisTask fd buf nbyte => some (devfsWrite thisTask fd buf nbyte s).2
  | elsewhere s1 => some { s with
      fildes := s1.fildes, task := s1.task, procTask := s1.procTask, env := s1.env }

/-- Devices are empty when they are unregistered, bytes are put only into entries that are in the table, and
    the slab hands out no entry that is. -/
def Event.Careful (E : Env σ) (s : State σ) : Event σ → Prop
  | register _ _ _ => ∀ e, (E.entryAlloc s.env).1 = some e → ¬ Registered s e
  | unregister index proc => ∀ e, driverEntry s index proc = some e → (s.entry e).device.Empty
  | driverPutc index proc _ => ∀ e, driverEntry s index proc = some e → Registered s e
  | driverWrite index proc _ _ => ∀ e, driverEntry s index proc = some e → Registered s e
  | write _ fd _ _ => Registered s (s.fildes fd).entry
  | _ => True

/-- A careful event. -/
def Step (E : Env σ) (s s' : State σ) : Prop := ∃ ev : Event σ, ev.Careful E s ∧ ev.after E s = some s'

/-- After `devfs_init`, with every object of the slab cache still zeroed. -/
structure Start (s : State σ) : Prop where
  entries : ∀ i : ℤ, 0 ≤ i → i < maxdevs → s.entries i = none
  zeroed : ∀ e, (s.entry e).device.Empty

/-- CLEAN: what is not in the table is empty. -/
def Clean (s : State σ) : Prop := ∀ e, ¬ Registered s e → (s.entry e).device.Empty

/-! ### One step -/

/-- Nothing but `e` is changed, and `e` is in the table or still empty. -/
theorem Clean.change (h : Clean s) (htable : s'.entries = s.entries)
    (hframe : ∀ e', e' ≠ e → s'.entry e' = s.entry e')
    (he : ¬ Registered s e → (s'.entry e).device.Empty) : Clean s' := by
  intro e' he'
  have hout : ¬ Registered s e' := by
    rintro ⟨i, h0, hlt, hi⟩
    exact he' ⟨i, h0, hlt, by rw [htable, hi]⟩
  by_cases heq : e' = e
  · subst heq
    exact he hout
  · rw [hframe e' heq]
    exact h e' hout

variable {r : ℤ}

theorem Clean.changesOnly {x : Option (ℤ × State σ)} (h : Clean s) (hx : ChangesOnly e s x)
    (hr : x = some (r, s')) (he : Registered s e) : Clean s' := by
  obtain ⟨v, -, rfl⟩ := hx r s' hr
  exact h.change rfl (fun e' hne => update_of_ne hne _ _) fun hout => absurd he hout

theorem Clean.register {name : List UInt8} {type r : ℤ} (h : Clean s)
    (hr : devfsRegister E name type proc s = some (r, s')) : Clean s' := by
  rcases devfsRegister_eq_some hr with ⟨-, hentries, hentry⟩ | ⟨e, hreg, rfl⟩
  · intro e' he'
    rw [hentry]
    exact h e' fun ⟨i, hi⟩ => he' ⟨i, by rwa [hentries]⟩
  obtain ⟨h0, hlt, hnone⟩ := hreg.slot_free
  intro e' he'
  have hne : e' ≠ e := by
    rintro rfl
    exact he' ⟨r, h0, hlt, update_self ..⟩
  have hout : ¬ Registered s e' := by
    rintro ⟨i, hi0, hilt, hi⟩
    refine he' ⟨i, hi0, hilt, ?_⟩
    change update s.entries r (some e) i = some e'
    rw [update_of_ne, hi]
    rintro rfl
    rw [hnone] at hi
    cases hi
  change (update s.entry e _ e').device.Empty
  rw [update_of_ne hne]
  exact h e' hout

theorem devfsUnregister_eq_some (h : devfsUnregister E index proc s = some (r, s')) :
    s'.entry = s.entry ∧ (s'.entries = s.entries ∨
      ∃ e, driverEntry s index proc = some e ∧ s'.entries = update s.entries index none) := by
  rw [devfsUnregister] at h
  split at h
  · cases h
    exact ⟨rfl, .inl rfl⟩
  next hindex =>
    obtain ⟨s1, hlock, h⟩ := Option.bind_eq_some_iff.mp h
    rw [State.spinLock, Option.ite_none_left_eq_some] at hlock
    obtain ⟨-, rfl⟩ := Option.some.inj hlock.2
    cases hentry : s.entries index with
    | none =>
      simp only [hentry] at h
      cases h
      exact ⟨rfl, .inl rfl⟩
    | some e =>
      simp only [hentry] at h
      split at h <;> cases h
      · exact ⟨rfl, .inl rfl⟩
      next howner =>
        refine ⟨rfl, .inr ⟨e, ?_, rfl⟩⟩
        rw [driverEntry, if_neg hindex]
        simp only [hentry, if_neg howner]

theorem Clean.unregister (h : Clean s)
    (hempty : ∀ e, driverEntry s index proc = some e → (s.entry e).device.Empty)
    (hr : devfsUnregister E index proc s = some (r, s')) : Clean s' := by
  obtain ⟨hentry, hentries | ⟨e, he, hentries⟩⟩ := devfsUnregister_eq_some hr
  · intro e' he'
    rw [hentry]
    exact h e' fun ⟨i, hi⟩ => he' ⟨i, by rwa [hentries]⟩
  intro e' he'
  rw [hentry]
  by_cases heq : e' = e
  · subst heq
    exact hempty e' he
  refine h e' fun ⟨i, h0, hlt, hi⟩ => he' ⟨i, h0, hlt, ?_⟩
  rw [hentries, update_of_ne, hi]
  rintro rfl
  rw [(driverEntry_eq_some he).2.1] at hi
  exact heq (Option.some.inj hi).symm

theorem fifoGetc_empty {f : Fifo} (h : f.head = f.tail) : fifoGetc f = (-1, f) := by
  rw [fifoGetc, if_pos h]

theorem Clean.driverGetc (h : Clean s) (hr : devfsDriverGetc index proc s = some (r, s')) :
    Clean s' := by
  cases hentry : driverEntry s index proc with
  | none =>
    simp only [devfsDriverGetc, hentry] at hr
    cases hr
    exact h
  | some e =>
    by_cases he : Registered s e
    · exact h.changesOnly (devfsDriverGetc_changes hentry) hr he
    have hempty := h e he
    simp only [devfsDriverGetc, hentry] at hr
    obtain ⟨s1, hlock, hr⟩ := Option.bind_eq_some_iff.mp hr
    obtain ⟨-, rfl⟩ := lockEntry_eq_some hlock
    cases hr
    rw [device_lockEntry, chrObufGetc, fifoGetc_empty hempty.2, unlockEntry_setDevice]
    refine h.change rfl (fun e' hne => update_of_ne hne _ _) fun _ => ?_
    simpa [State.setEntry] using hempty

theorem Clean.read {t fd nbyte : ℕ} (h : Clean s) : Clean (readRound E t fd nbyte s).state := by
  rw [readRound]
  dsimp only
  split
  · split <;> exact h
  next hlength =>
    refine h.change rfl (fun e' hne => update_of_ne hne _ _) fun hout => ?_
    -- an entry out of the table is empty, and a read of an empty buffer does not come here
    refine absurd ?_ hlength
    have hempty := (h _ hout).1
    rw [chrIbufLength, fifoLength, hempty]
    simp [wrap32]

theorem Clean.write {thisTask : Option ℕ} {fd nbyte : ℕ} {buf : ℕ → UInt8} (h : Clean s)
    (he : Registered s (s.fildes fd).entry) : Clean (devfsWrite thisTask fd buf nbyte s).2 := by
  cases thisTask with
  | none => exact h
  | some t =>
    rw [devfsWrite]
    dsimp only
    split
    · split
      · exact h
      · exact h.change rfl (fun e' hne => update_of_ne hne _ _)
          fun hout => absurd he hout
    · exact h

theorem Clean.driver {op : State σ → Option (ℤ × State σ)} (h : Clean s)
    (hnone : driverEntry s index proc = none → op s = some (-1, s))
    (hsome : ∀ e, driverEntry s index proc = some e → Registered s e ∧ ChangesOnly e s (op s))
    (hr : op s = some (r, s')) : Clean s' := by
  cases hentry : driverEntry s index proc with
  | none =>
    rw [hnone hentry] at hr
    cases hr
    exact h
  | some e =>
    obtain ⟨he, hchanges⟩ := hsome e hentry
    exact h.changesOnly hchanges hr he

/-- STEP -/
theorem Clean.step (h : Clean s) (hstep : Step E s s') : Clean s' := by
  obtain ⟨ev, hcareful, hafter⟩ := hstep
  cases ev with
  | elsewhere s1 =>
    cases hafter
    exact h
  | read t fd nbyte =>
    cases hafter
    exact h.read
  | write thisTask fd buf nbyte =>
    cases hafter
    exact h.write hcareful
  | register name type proc =>
    obtain ⟨⟨r, s1⟩, hr, rfl⟩ := Option.map_eq_some_iff.mp hafter
    exact h.register hr
  | unregister index proc =>
    obtain ⟨⟨r, s1⟩, hr, rfl⟩ := Option.map_eq_some_iff.mp hafter
    exact h.unregister hcareful hr
  | driverPutc index proc c =>
    obtain ⟨⟨r, s1⟩, hr, rfl⟩ := Option.map_eq_some_iff.mp hafter
    exact h.driver (fun hnone => by rw [devfsDriverPutc, hnone])
      (fun e he => ⟨hcareful e he, devfsDriverPutc_changes he⟩) hr
  | driverWrite index proc buf n =>
    obtain ⟨⟨r, s1⟩, hr, rfl⟩ := Option.map_eq_some_iff.mp hafter
    exact h.driver (fun hnone => by rw [devfsDriverWrite, hnone])
      (fun e he => ⟨hcareful e he, devfsDriverWrite_changes he⟩) hr
  | driverGetc index proc =>
    obtain ⟨⟨r, s1⟩, hr, rfl⟩ := Option.map_eq_some_iff.mp hafter
    exact h.driverGetc hr

/-! ### Histories -/

end Advos.Devfs
