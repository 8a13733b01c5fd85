import Advos.Schemes.Linked
import Advos.Schemes.Word

/-! The scheduler, the timer and the process calls that move tasks between states.

    One `task_t` belongs to each process; the idle task belongs to none. `ksignal_clock` (`arch.c`)
    runs at every tick of the boot processor: it expires timer events, charges the current task, and
    at the end of a quantum takes the head of the run queue, refilling the queue from the process
    table only when it is empty (`sched.c`). `sys_nanosleep`, `sys_fork_c` and `sys_exit`
    (`syscall.c`) are called by the current task; `_task_switch` and `_task_restart` (`asm.S`) make
    the next task current.

        procs ──sched_schedule──▶ runqueue ──ksignal_clock──▶ next_task ──task_restart──▶ cur_task
          ▲                                                                                │
          └───────────────── READY ◀── timer ◀── BLOCKED ◀──── sys_nanosleep ◀─────────────┘

    Tasks and processes are cells of a heap named by their addresses. -/

namespace Advos.Sched
open Linked Word

/-- `task_state_t`. -/
inductive TaskState
  | created | ready | running | blocked | terminated
deriving DecidableEq, Repr

/-- `task_t`: the owner, the state, the run queue link and the quantum left (an `int`). -/
structure Task where
  proc : Option ℕ
  state : TaskState
  next : Option ℕ
  credit : ℤ
deriving DecidableEq, Repr

/-- `proc_t`, as far as the scheduler and the calls below read or write it. -/
structure Proc where
  pid : ℕ
  parent : Option ℕ
  task : Option ℕ
  exitStatus : ℤ
deriving DecidableEq, Repr

/-- `timer_event_t`; the `next` links are the list in `Kernel.timer`. -/
structure TimerEvent where
  jiffies : ℕ
  proc : ℕ
deriving DecidableEq, Repr

/-- `PROC_NR`. -/
def procNr : ℕ := 65536

/-- `HZ`. -/
def hz : ℤ := 100

/-- The parts of `kvar_t` and of the boot processor's `arch_cpu_data` that scheduling uses. -/
structure Kernel where
  task : ℕ → Task
  proc : ℕ → Proc
  /-- The process table; slots past the end of the list are NULL. -/
  procs : List (Option ℕ)
  runqueue : Option ℕ
  jiffies : ℕ
  timer : List TimerEvent
  curTask : Option ℕ
  nextTask : Option ℕ
  idleTask : Option ℕ
  /-- The tasks in the endless loop at the end of `sys_exit`. -/
  halted : List ℕ
  /-- HISTORY, not in the source: the events `sys_nanosleep` set up and those the clock fired. -/
  slept : List TimerEvent
  fired : List TimerEvent

namespace Kernel

def setTask (s : Kernel) (t : ℕ) (v : Task) : Kernel := { s with task := Function.update s.task t v }

/-- `t->state = state`. -/
def setState (s : Kernel) (t : ℕ) (state : TaskState) : Kernel :=
  s.setTask t { s.task t with state := state }

end Kernel

/-! ### The clock -/

/-- `e->proc->task->state = TASK_READY`. -/
def fireEvent (s : Kernel) (e : TimerEvent) : Kernel :=
  match (s.proc e.proc).task with
  | some t => s.setState t .ready
  -- a NULL dereference; no process without a task is ever in the table
  | none => s

/-- The expiry loop of `ksignal_clock`: from the head, while the event lies in the past. -/
def fireTimers : List TimerEvent → Kernel → Kernel
  | [], s => { s with timer := [] }
  | e :: es, s =>
    if e.jiffies < s.jiffies then fireTimers es { fireEvent s e with fired := e :: s.fired }
    else { s with timer := e :: es }

/-- `t->credit = 10; t->next = *rq; *rq = t`. -/
def enqueue (s : Kernel) (t : ℕ) : Kernel :=
  { s.setTask t { s.task t with credit := 10, next := s.runqueue } with runqueue := some t }

/-- One slot of the loop of `sched_schedule`. -/
def schedSlot (s : Kernel) (slot : Option ℕ) : Kernel :=
  match slot with
  | none => s
  | some p =>
    match (s.proc p).task with
    | none => s
    | some t => if (s.task t).state = .ready then enqueue s t else s

/-- `sched_schedule`. -/
def schedSchedule (s : Kernel) : Kernel := s.procs.foldl schedSlot s

/-- `t->credit--` for the current task. -/
def charge (s : Kernel) : Kernel :=
  match s.curTask with
  | none => s
  | some t => s.setTask t { s.task t with credit := wrap32 ((s.task t).credit - 1) }

/-- The current task has quantum left after the charge. -/
def keepsCpu (s : Kernel) : Bool :=
  match s.curTask with
  | none => false
  | some t => (s.task t).credit > 0

/-- `cpu->cur_task->task->state = TASK_READY`. -/
def preempt (s : Kernel) : Kernel :=
  match s.curTask with
  | none => s
  | some t => s.setState t .ready

/-- The low level scheduler: the head of the run queue, or the idle task. -/
def dispatch (s : Kernel) : Kernel :=
  match s.runqueue with
  | none => { s with nextTask := s.idleTask }
  | some t => { s.setState t .running with runqueue := (s.task t).next, nextTask := some t }

/-- The first half of `ksignal_clock`. -/
def clockTimers (s : Kernel) : Kernel :=
  fireTimers s.timer { s with jiffies := add64 s.jiffies 1 }

/-- `ksignal_clock` on the boot processor. -/
def ksignalClock (s : Kernel) : Kernel :=
  let s := charge (clockTimers s)
  if keepsCpu s then s
  else dispatch (preempt (if s.runqueue = none then schedSchedule s else s))

/-- `_task_restart`. -/
def taskRestart (s : Kernel) : Kernel :=
  match s.nextTask with
  | none => s
  | some t => { s with curTask := some t, nextTask := none }

/-! ### Calls of the current task -/

/-- `_task_switch`: the next task if there is one, the idle task otherwise. -/
def taskSwitch (s : Kernel) : Kernel :=
  match s.curTask with
  | none => s
  | some _ =>
    { s with curTask := if s.nextTask = none then s.idleTask else s.nextTask, nextTask := none }

/-- The tick at which a sleep ends, as `sys_nanosleep` computes it. -/
def fireTime (jiffies : ℕ) (tvSec tvNsec : ℤ) : ℕ :=
  toWord64 (wrap64 (tvSec * hz) + (wrap64 (tvNsec * hz)).tdiv 1000000000 + jiffies)

/-- The search loop of `sys_nanosleep`, and the insertion where it stops. -/
def insertEvent (e : TimerEvent) : List TimerEvent → List TimerEvent
  | [] => [e]
  | d :: ds => if e.jiffies < d.jiffies then d :: insertEvent e ds else e :: d :: ds

/-- `sys_nanosleep` up to the switch; `slab` says whether the event could be allocated. -/
def sysNanosleep (slab : Bool) (tvSec tvNsec : ℤ) (s : Kernel) : Kernel :=
  match s.curTask with
  | none => s
  | some t =>
    match (s.task t).proc with
    | none => s
    | some p =>
      if slab then
        let e : TimerEvent := ⟨fireTime s.jiffies tvSec tvNsec, p⟩
        taskSwitch { s.setState t .blocked with
          timer := insertEvent e s.timer, slept := e :: s.slept }
      else s

/-- The first NULL slot of the process table, if any. -/
def freeSlot (procs : List (Option ℕ)) : Option ℕ :=
  if procs.findIdx (· = none) < procNr then some (procs.findIdx (· = none)) else none

/-- `g_kvar->procs[i] = proc`, for the slot `freeSlot` found. -/
def setSlot (procs : List (Option ℕ)) (i p : ℕ) : List (Option ℕ) :=
  if i < procs.length then procs.set i (some p) else procs ++ [some p]

/-- The child that `proc_fork` made, `task_alloc`'s initial values included, in slot `i`. -/
def addChild (s : Kernel) (parent i p c : ℕ) : Kernel :=
  { s.setTask c ⟨some p, .ready, none, 0⟩ with
    proc := Function.update s.proc p ⟨i + 1, some parent, some c, 0⟩
    procs := setSlot s.procs i p }

/-- `sys_fork_c`: the pid of the child, and the state. `mem` is where `proc_fork` got the new `proc_t`
    and `task_t`, if it did not fail. -/
def sysForkC (mem : Option (ℕ × ℕ)) (s : Kernel) : Option ℕ × Kernel :=
  match s.curTask with
  | none => (none, s)
  | some t =>
    match (s.task t).proc with
    | none => (none, s)
    | some parent =>
      match freeSlot s.procs, mem with
      | some i, some (p, c) => (some (i + 1), addChild s parent i p c)
      | _, _ => (none, s)

/-- `sys_exit` up to its endless loop. -/
def sysExit (status : ℤ) (s : Kernel) : Kernel :=
  match s.curTask with
  | none => s
  | some t =>
    match (s.task t).proc with
    | none => s
    | some p =>
      { s.setState t .terminated with
        proc := Function.update s.proc p { s.proc p with exitStatus := status }
        halted := t :: s.halted }

/-! ### Runs -/

/-- Where the boot code put the idle task, and the `init` process and its task. -/
structure Boot where
  idle : ℕ
  init : ℕ
  initProc : ℕ
  distinct : idle ≠ init

/-- The state the boot processor enters `_task_restart` with: `init` is the next task. -/
def Boot.prepared (b : Boot) : Kernel where
  task := Function.update (fun _ => ⟨none, .ready, none, 0⟩) b.init ⟨some b.initProc, .ready, none, 0⟩
  proc := fun _ => ⟨1, none, some b.init, 0⟩
  procs := [some b.initProc]
  runqueue := none
  jiffies := 0
  timer := []
  curTask := none
  nextTask := some b.init
  idleTask := some b.idle
  halted := []
  slept := []
  fired := []

def Boot.state (b : Boot) : Kernel := taskRestart b.prepared

/-- A tick: the handler of the timer interrupt. -/
def tick (s : Kernel) : Kernel := taskRestart (ksignalClock s)

/-- Task `t` of a process runs, and is not in the last loop of `sys_exit`. -/
def Calls (s : Kernel) (t : ℕ) : Prop :=
  s.curTask = some t ∧ (s.task t).proc ≠ none ∧ t ∉ s.halted

/-- `p` and `c` are no cells in use: no process of the table is or owns them, `c` is not idle. -/
def Fresh (s : Kernel) (p c : ℕ) : Prop :=
  some p ∉ s.procs ∧ (∀ q, some q ∈ s.procs → (s.proc q).task ≠ some c) ∧ s.idleTask ≠ some c

/-- One step of the boot processor: a tick, in a state that meets `ok`, or a call. -/
inductive Step (ok : Kernel → Prop) : Kernel → Kernel → Prop
  | tick (s : Kernel) (h : ok s) : Step ok s (tick s)
  | nanosleep (s : Kernel) (t : ℕ) (h : Calls s t) (slab : Bool) (tvSec tvNsec : ℤ) :
      Step ok s (sysNanosleep slab tvSec tvNsec s)
  | fork (s : Kernel) (t : ℕ) (h : Calls s t) (mem : Option (ℕ × ℕ))
      (hm : ∀ p c, mem = some (p, c) → Fresh s p c) : Step ok s (sysForkC mem s).2
  | exit (s : Kernel) (t : ℕ) (h : Calls s t) (status : ℤ) : Step ok s (sysExit status s)

/-- The states that runs reach from boot, ticks coming at any time. -/
def Reach (b : Boot) (s : Kernel) : Prop := Relation.ReflTransGen (Step fun _ => True) b.state s

/-- The run queue as the list of the tasks met from its head. -/
def RunQueue (s : Kernel) (q : List ℕ) : Prop := Chain (fun t => (s.task t).next) s.runqueue q

end Advos.Sched
