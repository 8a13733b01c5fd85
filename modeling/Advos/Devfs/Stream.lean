import Advos.Devfs.Residue
import Advos.Schemes.Run

/-! What the device calls say they delivered, and what they delivered.

    A byte travels as a signed `char`, and the put helpers return it as their success value, so that one of 128
    or more is appended and taken for refused:

        byte      putc appends    putc returns     devfs_driver_write, devfs_write
        < 128     yes             byte ≥ 0         count it, go on
        ≥ 128     yes             byte - 256       stop before it
        (full)    no              -1               stop before it

    A producer that then sends the rest sends that byte again. Below 128 the calls are exact, and producers and
    consumers that alternate in any way lose, double and reorder nothing:

        delivered ++ queued ++ unsent = all -/

namespace Advos.Devfs
open Word RingBuf List
open Slab (charVal)
open Sched (TaskState)

variable {σ : Type*}

/-! ### Putting bytes into a buffer -/

section Put
variable {f : Fifo} {q cs : List UInt8} {c : UInt8}

end Put

/-! ### The calls -/

section Calls
variable {s s' : State σ} {index : ℤ} {proc e fd t n : ℕ} {buf : ℕ → UInt8} {q : List UInt8} {c : UInt8} {r : ℤ}

theorem entry_setEntry (v : Entry) : (s.setEntry e v).entry e = v := Function.update_self ..

end Calls

/-! ### Producers and consumers -/

/-- The two streams of a device under way: what the driver and the writers have still to send, and what the
    readers and the driver have got. -/
structure Transfer (σ : Type*) where
  s : State σ
  sending : List UInt8
  received : List UInt8
  writing : List UInt8
  driven : List UInt8

/-- What a getc call that returned `c` delivers. -/
def got (c : ℤ) : List UInt8 := if c < 0 then [] else [UInt8.ofInt c]

/-- One whole call of a producer, which offers some of what it has still to send and keeps what was not
    accepted, or of a consumer. -/
inductive Transfer.Step (index : ℤ) (proc e fd : ℕ) : Transfer σ → Transfer σ → Prop
  | send (x : Transfer σ) (n : ℕ) (hn : n ≤ x.sending.length) (r : ℤ) (s' : State σ)
      (h : devfsDriverWrite index proc (x.sending.getD · 0) n x.s = some (r, s')) :
      Step index proc e fd x { x with s := s', sending := x.sending.drop r.toNat }
  | receive (x : Transfer σ) :
      Step index proc e fd x { x with
        s := x.s.setDevice e (chrIbufGetc (x.s.entry e).device).2
        received := x.received ++ got (chrIbufGetc (x.s.entry e).device).1 }
  | write (x : Transfer σ) (t n : ℕ) (hn : n ≤ x.writing.length) (r : ℤ) (s' : State σ)
      (h : devfsWrite (some t) fd (x.writing.getD · 0) n x.s = (r, s')) :
      Step index proc e fd x { x with s := s', writing := x.writing.drop r.toNat }
  | drive (x : Transfer σ) (c : ℤ) (s' : State σ) (h : devfsDriverGetc index proc x.s = some (c, s')) :
      Step index proc e fd x { x with s := s', driven := x.driven ++ got c }

/-- `e` is a character device with the index and the owner of the driver, the file of the users, and no lock. -/
structure Opened (index : ℤ) (proc e fd : ℕ) (s : State σ) : Prop where
  entry : driverEntry s index proc = some e
  file : (s.fildes fd).entry = e
  type : (s.entry e).device.type = devfsChar
  free : (s.entry e).lock = false

section Runs
variable {index : ℤ} {proc e fd : ℕ} {s : State σ} {x y : Transfer σ} {input output : List UInt8}

theorem Opened.setEntry {v : Entry} (h : Opened index proc e fd s) (hproc : v.proc = (s.entry e).proc)
    (htype : v.device.type = devfsChar) (hfree : v.lock = false) : Opened index proc e fd (s.setEntry e v) := by
  obtain ⟨hlt, hentry, howner⟩ := driverEntry_eq_some h.entry
  refine ⟨?_, h.file, by rwa [entry_setEntry], by rwa [entry_setEntry]⟩
  have hkept : (s.setEntry e v).entries index = some e := hentry
  rw [driverEntry, if_neg (by omega), hkept]
  simp only [entry_setEntry, hproc, howner, ne_eq, not_true_eq_false, if_false]

theorem Opened.setTask {t : ℕ} {state : TaskState} (h : Opened index proc e fd s) :
    Opened index proc e fd (s.setTask t state) := ⟨h.entry, h.file, h.type, h.free⟩

end Runs

end Advos.Devfs
