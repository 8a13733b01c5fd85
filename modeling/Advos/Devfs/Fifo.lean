import Mathlib.Tactic.Ring
import Advos.Schemes.Ring
import Advos.Schemes.Word

/-! The two byte queues of a character device (`devfs.c`).

    A device has an input buffer, which its driver fills and `devfs_read` empties, and an output buffer,
    which `devfs_write` fills and the driver empties:

        driver ──putc──▶ ibuf ──getc──▶ readers          writers ──putc──▶ obuf ──getc──▶ driver

    Each is a ring of 8192 cells. The functions for the two are the same but for the buffer, so there is one
    definition for each pair; calls are related to a pair of queues of at most 8191 bytes. -/

namespace Advos.Devfs
open Word RingBuf

/-- `SYSDRIVER_DEV_BUFSIZE`, and the size of `devfs_fifo.buf`. -/
def bufsize : ℕ := 8192

/-- `struct devfs_fifo`. -/
abbrev Fifo := RingBuf UInt8

/-- `struct devfs_device`, with the character device it holds. -/
structure Device where
  type : ℤ
  ibuf : Fifo
  obuf : Fifo

/-- Put one character: the result is `c` itself, as an `int`, or -1 if the buffer is full. -/
def fifoPutc (f : Fifo) (c : ℤ) : ℤ × Fifo :=
  if f.head = next bufsize f.tail then (-1, f) else (c, push bufsize (UInt8.ofInt c) f)

/-- Get one character, or -1 if the buffer is empty. -/
def fifoGetc (f : Fifo) : ℤ × Fifo :=
  if f.head = f.tail then (-1, f) else ((f.buf f.head).toNat, pop bufsize f)

/-- The queued length, an `off_t` returned as an `int`. -/
def fifoLength (f : Fifo) : ℤ :=
  wrap32 (if f.tail ≥ f.head then f.tail - f.head else bufsize + f.tail - f.head)

def chrIbufPutc (dev : Device) (c : ℤ) : ℤ × Device :=
  ((fifoPutc dev.ibuf c).1, { dev with ibuf := (fifoPutc dev.ibuf c).2 })

def chrIbufGetc (dev : Device) : ℤ × Device :=
  ((fifoGetc dev.ibuf).1, { dev with ibuf := (fifoGetc dev.ibuf).2 })

def chrIbufLength (dev : Device) : ℤ := fifoLength dev.ibuf

def chrObufPutc (dev : Device) (c : ℤ) : ℤ × Device :=
  ((fifoPutc dev.obuf c).1, { dev with obuf := (fifoPutc dev.obuf c).2 })

def chrObufGetc (dev : Device) : ℤ × Device :=
  ((fifoGetc dev.obuf).1, { dev with obuf := (fifoGetc dev.obuf).2 })

def chrObufLength (dev : Device) : ℤ := fifoLength dev.obuf

def chrObufAvailable (dev : Device) : ℤ := if chrObufLength dev ≥ bufsize - 1 then 0 else 1

/-! ### One buffer -/

section Fifo
variable {f : Fifo} {q : List UInt8}

theorem fifoPutc_full (h : Holds bufsize f q) (hq : q.length = 8191) (c : ℤ) : fifoPutc f c = (-1, f) := by
  rw [fifoPutc, if_pos (h.full_iff.mpr hq)]

theorem fifoPutc_room (h : Holds bufsize f q) (hq : q.length ≠ 8191) (c : ℤ) :
    fifoPutc f c = (c, push bufsize (UInt8.ofInt c) f) := by
  rw [fifoPutc, if_neg (mt h.full_iff.mp hq)]

theorem fifoGetc_nil (h : Holds bufsize f []) : fifoGetc f = (-1, f) := by
  rw [fifoGetc, if_pos (h.empty_iff.mpr rfl)]

theorem fifoGetc_cons {x : UInt8} (h : Holds bufsize f (x :: q)) :
    fifoGetc f = ((x.toNat : ℤ), pop bufsize f) := by
  rw [fifoGetc, if_neg (mt h.empty_iff.mp (List.cons_ne_nil _ _)), h.pop.1]

theorem fifoLength_eq (h : Holds bufsize f q) : fifoLength f = q.length := by
  have hroom := h.room
  rw [bufsize] at hroom
  rw [fifoLength, h.length_eq, wrap32, Int.bmod_eq_of_le] <;> omega

theorem ofInt_toNat (c : UInt8) : UInt8.ofInt c.toNat = c := by
  have hc : (c.toNat : ℤ) % 2 ^ 8 = c.toNat := by
    have := c.toNat_lt
    omega
  rw [UInt8.ofInt, hc, Int.toNat_natCast, UInt8.ofNat_toNat]

end Fifo

/-! ### A pair of bounded queues -/

/-- The bytes queued for the readers and for the driver, oldest first. -/
structure Queues where
  input : List UInt8
  output : List UInt8

/-- The number of bytes a queue can hold. -/
def capacity : ℕ := 8191

/-- PUT: refused when the queue is full. -/
def putQueue (q : List UInt8) (c : UInt8) : ℤ × List UInt8 :=
  if q.length = capacity then (-1, q) else (c.toNat, q ++ [c])

/-- GET: the oldest byte. -/
def getQueue : List UInt8 → ℤ × List UInt8
  | [] => (-1, [])
  | c :: q => (c.toNat, q)

/-- The calls a device's buffers serve. -/
inductive Call
  | ibufPutc (c : UInt8) | ibufGetc | ibufLength
  | obufPutc (c : UInt8) | obufGetc | obufLength | obufAvailable

/-- What a call returns and leaves, on the device ... -/
def Call.run : Call → Device → ℤ × Device
  | ibufPutc c, dev => chrIbufPutc dev c.toNat
  | ibufGetc, dev => chrIbufGetc dev
  | ibufLength, dev => (chrIbufLength dev, dev)
  | obufPutc c, dev => chrObufPutc dev c.toNat
  | obufGetc, dev => chrObufGetc dev
  | obufLength, dev => (chrObufLength dev, dev)
  | obufAvailable, dev => (chrObufAvailable dev, dev)

/-- ... and on the queues. -/
def Call.spec : Call → Queues → ℤ × Queues
  | ibufPutc c, q => ((putQueue q.input c).1, { q with input := (putQueue q.input c).2 })
  | ibufGetc, q => ((getQueue q.input).1, { q with input := (getQueue q.input).2 })
  | ibufLength, q => (q.input.length, q)
  | obufPutc c, q => ((putQueue q.output c).1, { q with output := (putQueue q.output c).2 })
  | obufGetc, q => ((getQueue q.output).1, { q with output := (getQueue q.output).2 })
  | obufLength, q => (q.output.length, q)
  | obufAvailable, q => (if (putQueue q.output 0).1 = -1 then 0 else 1, q)

/-- The results of a sequence of calls, and what it leaves. -/
def runCalls {σ : Type*} (call : Call → σ → ℤ × σ) : List Call → σ → List ℤ × σ
  | [], s => ([], s)
  | c :: cs, s => ((call c s).1 :: (runCalls call cs (call c s).2).1, (runCalls call cs (call c s).2).2)

/-- The device's buffers hold the queues. -/
structure Queued (dev : Device) (q : Queues) : Prop where
  ibuf : Holds bufsize dev.ibuf q.input
  obuf : Holds bufsize dev.obuf q.output

section Refinement
variable {f : Fifo} {q : List UInt8} {dev : Device} {Q : Queues}

theorem fifoPutc_refines (h : Holds bufsize f q) (c : UInt8) :
    (fifoPutc f c.toNat).1 = (putQueue q c).1 ∧ Holds bufsize (fifoPutc f c.toNat).2 (putQueue q c).2 := by
  by_cases hq : q.length = capacity
  · rw [fifoPutc_full h hq, putQueue, if_pos hq]
    exact ⟨rfl, h⟩
  · rw [fifoPutc_room h hq, putQueue, if_neg hq, ofInt_toNat]
    exact ⟨rfl, h.push hq⟩

theorem fifoGetc_refines (h : Holds bufsize f q) :
    (fifoGetc f).1 = (getQueue q).1 ∧ Holds bufsize (fifoGetc f).2 (getQueue q).2 := by
  cases q with
  | nil =>
    rw [fifoGetc_nil h]
    exact ⟨rfl, h⟩
  | cons x q =>
    rw [fifoGetc_cons h]
    exact ⟨rfl, h.pop.2⟩

theorem chrObufAvailable_eq (h : Queued dev Q) :
    chrObufAvailable dev = if (putQueue Q.output 0).1 = -1 then 0 else 1 := by
  have hroom : Q.output.length < 8192 := h.obuf.room
  rw [chrObufAvailable, chrObufLength, fifoLength_eq h.obuf, putQueue]
  by_cases hq : Q.output.length = capacity
  · rw [if_pos (by rw [hq]; decide), if_pos (by rw [if_pos hq])]
  · rw [if_neg (by rw [capacity] at hq; simp only [bufsize]; omega), if_neg (by rw [if_neg hq]; simp)]

/-- STEP: a call returns what the queues' call returns, and leaves the queues it leaves. -/
theorem Call.refines (c : Call) (h : Queued dev Q) :
    (c.run dev).1 = (c.spec Q).1 ∧ Queued (c.run dev).2 (c.spec Q).2 := by
  cases c with
  | ibufPutc c => exact ⟨(fifoPutc_refines h.ibuf c).1, (fifoPutc_refines h.ibuf c).2, h.obuf⟩
  | ibufGetc => exact ⟨(fifoGetc_refines h.ibuf).1, (fifoGetc_refines h.ibuf).2, h.obuf⟩
  | ibufLength => exact ⟨fifoLength_eq h.ibuf, h⟩
  | obufPutc c => exact ⟨(fifoPutc_refines h.obuf c).1, h.ibuf, (fifoPutc_refines h.obuf c).2⟩
  | obufGetc => exact ⟨(fifoGetc_refines h.obuf).1, h.ibuf, (fifoGetc_refines h.obuf).2⟩
  | obufLength => exact ⟨fifoLength_eq h.obuf, h⟩
  | obufAvailable => exact ⟨chrObufAvailable_eq h, h⟩

/-- RUN -/
theorem runCalls_refines (cs : List Call) : ∀ {dev : Device} {Q : Queues}, Queued dev Q →
    (runCalls Call.run cs dev).1 = (runCalls Call.spec cs Q).1 ∧
      Queued (runCalls Call.run cs dev).2 (runCalls Call.spec cs Q).2 := by
  induction cs with
  | nil => exact fun h => ⟨rfl, h⟩
  | cons c cs ih =>
    intro dev Q h
    obtain ⟨hresult, hnext⟩ := c.refines h
    obtain ⟨hresults, hlast⟩ := ih hnext
    refine ⟨?_, hlast⟩
    change (c.run dev).1 :: _ = (c.spec Q).1 :: _
    rw [hresult, hresults]

end Refinement

/-- The four indices are inside the buffers. -/
def InBounds (dev : Device) : Prop :=
  ∀ x ∈ [dev.ibuf.head, dev.ibuf.tail, dev.obuf.head, dev.obuf.tail], 0 ≤ x ∧ x < 8192

/-- From empty buffers, every sequence of calls returns what the two queues of 8191 bytes return; the indices
    stay inside the buffers, and a put that is refused changes nothing. -/
theorem buffers_are_queues (dev : Device) (hi : dev.ibuf.head = 0 ∧ dev.ibuf.tail = 0)
    (ho : dev.obuf.head = 0 ∧ dev.obuf.tail = 0) (cs : List Call) :
    let r := runCalls Call.run cs dev
    let q := runCalls Call.spec cs ⟨[], []⟩
    r.1 = q.1 ∧ InBounds r.2 ∧
      (∀ c : UInt8, (chrIbufPutc r.2 c.toNat).1 = -1 → (chrIbufPutc r.2 c.toNat).2 = r.2) ∧
      ∀ c : UInt8, (chrObufPutc r.2 c.toNat).1 = -1 → (chrObufPutc r.2 c.toNat).2 = r.2 := by
  have hnil : ∀ {f : Fifo}, f.head = 0 ∧ f.tail = 0 → Holds bufsize f [] := by
    rintro f ⟨hh, ht⟩
    exact holds_nil (by decide) (by rw [hh]; decide) (by rw [hh, ht])
  have hsame : ∀ {f : Fifo} {c : UInt8}, (fifoPutc f c.toNat).1 = -1 → (fifoPutc f c.toNat).2 = f := by
    intro f c h
    rw [fifoPutc] at h ⊢
    split at h
    · rw [if_pos ‹_›]
    · omega
  obtain ⟨hresults, hq⟩ := runCalls_refines cs (Queued.mk (hnil hi) (hnil ho) : Queued dev ⟨[], []⟩)
  refine ⟨hresults, ?_, fun c hc => ?_, fun c hc => ?_⟩
  · have hi := hq.ibuf.head
    have ho := hq.obuf.head
    have hit := hq.ibuf.tail_mem
    have hot := hq.obuf.tail_mem
    simp only [InBounds, List.forall_mem_cons]
    exact ⟨hi, hit, ho, hot, by simp⟩
  · rw [chrIbufPutc, hsame hc]
  · rw [chrObufPutc, hsame hc]

theorem buffers_are_queues_three_bytes :
    let zeros : Fifo := ⟨fun _ => 0, 0, 0⟩
    (runCalls Call.run [.ibufPutc 200, .obufPutc 7, .ibufPutc 0, .ibufGetc, .ibufLength, .obufAvailable]
      ⟨0, zeros, zeros⟩).1 = [200, 7, 0, 200, 1, 1] :=
  (buffers_are_queues _ ⟨rfl, rfl⟩ ⟨rfl, rfl⟩ _).1.trans (by decide)

end Advos.Devfs
