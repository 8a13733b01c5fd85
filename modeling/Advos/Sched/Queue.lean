import Advos.Schemes.Run
import Advos.Sched.Kernel

/-! The run queue over every run.

    `Core s q`: the queue is the chain `q` of READY tasks owned by processes of the table, pending
    timer events belong to BLOCKED tasks, one event a process, and the current task is not BLOCKED.
    The parts of a tick keep it, the refill with a new `q`. `Inv` adds that the current task is not
    queued, which the first task breaks inside its first tick: it runs as READY, so the refill queues
    it. -/

namespace Advos.Sched
open Linked Word Function List

/-- Task `t` belongs to a process of the table. -/
def Owned (s : Kernel) (t : ℕ) : Prop := ∃ p, some p ∈ s.procs ∧ (s.proc p).task = some t

structure Core (s : Kernel) (q : List ℕ) : Prop where
  queue : RunQueue s q
  ready : ∀ t ∈ q, (s.task t).state = .ready ∧ Owned s t
  cur : ∃ c, s.curTask = some c ∧ (s.task c).state ≠ .blocked ∧ (Owned s c ∨ s.idleTask = some c)
  next : s.nextTask = none
  idle : ∃ i, s.idleTask = some i ∧ (s.task i).proc = none ∧ (s.task i).state ≠ .blocked
  table : ∀ p, some p ∈ s.procs → ∃ t, (s.proc p).task = some t ∧ (s.task t).proc = some p
  slots : (s.procs.filterMap id).Nodup
  events : ∀ e ∈ s.timer, some e.proc ∈ s.procs ∧
    ∀ t, (s.proc e.proc).task = some t → (s.task t).state = .blocked
  once : (s.timer.map TimerEvent.proc).Nodup

structure Inv (s : Kernel) (q : List ℕ) : Prop extends Core s q where
  running : ∀ c, s.curTask = some c → c ∉ q

/-! ### Owners -/

section Owners
variable {s : Kernel} {q : List ℕ}

theorem Core.owner (h : Core s q) {t p : ℕ} (ht : (s.task t).proc = some p) (ho : Owned s t) :
    some p ∈ s.procs ∧ (s.proc p).task = some t := by
  obtain ⟨p', hp', htask⟩ := ho
  obtain ⟨t', ht', hback⟩ := h.table p' hp'
  obtain rfl : t = t' := Option.some.inj (htask.symm.trans ht')
  obtain rfl : p = p' := Option.some.inj (ht.symm.trans hback)
  exact ⟨hp', htask⟩

theorem Core.owner_unique (h : Core s q) {t p p' : ℕ} (hp : some p ∈ s.procs)
    (ht : (s.proc p).task = some t) (hp' : some p' ∈ s.procs) (ht' : (s.proc p').task = some t) :
    p = p' := by
  obtain ⟨u, hu, hback⟩ := h.table p hp
  obtain rfl : t = u := Option.some.inj (ht.symm.trans hu)
  obtain ⟨u', hu', hback'⟩ := h.table p' hp'
  obtain rfl : t = u' := Option.some.inj (ht'.symm.trans hu')
  rw [hback] at hback'
  exact Option.some.inj hback'

theorem Core.idle_not_owned (h : Core s q) {i : ℕ} (hi : s.idleTask = some i) : ¬ Owned s i := by
  rintro ⟨p, hp, ht⟩
  obtain ⟨t, ht', hback⟩ := h.table p hp
  obtain ⟨j, hj, hnone, -⟩ := h.idle
  obtain rfl : i = t := Option.some.inj (ht.symm.trans ht')
  obtain rfl : i = j := Option.some.inj (hi.symm.trans hj)
  rw [hnone] at hback
  exact absurd hback (by simp)

theorem Core.idle_notMem (h : Core s q) {i : ℕ} (hi : s.idleTask = some i) : i ∉ q := fun hq =>
  h.idle_not_owned hi (h.ready i hq).2

/-- The current task, when it is a process's, has no pending event. -/
theorem Core.no_event (h : Core s q) {t : ℕ} (hb : (s.task t).state ≠ .blocked) {e : TimerEvent}
    (he : e ∈ s.timer) : (s.proc e.proc).task ≠ some t := fun ht => hb ((h.events e he).2 t ht)

end Owners

/-! ### The parts of a tick -/

/-- Some event of `l` belongs to task `t`. -/
def wokenBy (s : Kernel) (l : List TimerEvent) (t : ℕ) : Bool :=
  l.any fun e => (s.proc e.proc).task = some t

/-- Event `e` lies in the past at time `now`. -/
def due (now : ℕ) (e : TimerEvent) : Bool := e.jiffies < now

theorem fireEvent_eq (s : Kernel) (e : TimerEvent) : fireEvent s e =
    { s with task := fun t => if (s.proc e.proc).task = some t then
        { s.task t with state := .ready } else s.task t } := by
  unfold fireEvent
  cases htask : (s.proc e.proc).task with
  | none => simp
  | some u =>
    simp only [Kernel.setState, Kernel.setTask, Option.some.injEq]
    congr 1
    funext t
    by_cases hu : u = t
    · subst hu; simp
    · rw [update_of_ne (Ne.symm hu), if_neg hu]

/-- The expiry loop: the events in front of the first one not due fire and wake their tasks. -/
theorem fireTimers_eq : ∀ (l : List TimerEvent) (s : Kernel), fireTimers l s =
    { s with
      timer := l.dropWhile (due s.jiffies)
      fired := (l.takeWhile (due s.jiffies)).reverse ++ s.fired
      task := fun t => if wokenBy s (l.takeWhile (due s.jiffies)) t then
        { s.task t with state := .ready } else s.task t }
  | [], s => by simp [fireTimers, wokenBy]
  | e :: es, s => by
      by_cases hd : e.jiffies < s.jiffies
      · have hdue : due s.jiffies e = true := by simpa [due] using hd
        rw [fireTimers, if_pos hd, fireTimers_eq es, fireEvent_eq]
        simp only [takeWhile_cons, dropWhile_cons, hdue, if_true, reverse_cons,
          append_assoc, singleton_append]
        congr 1
        funext t
        -- a task woken by both this event and a later one is set READY twice
        by_cases h1 : (s.proc e.proc).task = some t <;>
          by_cases h2 : wokenBy s (es.takeWhile (due s.jiffies)) t = true <;>
            simp_all [wokenBy]
      · have hdue : ¬ due s.jiffies e = true := by simpa [due] using hd
        rw [fireTimers, if_neg hd]
        simp [hdue, wokenBy]

section Parts
variable {s : Kernel} {q : List ℕ}

/-- What a change of task states and of the pending events has to respect. -/
theorem Core.change (h : Core s q) {f : ℕ → Task} {timer' : List TimerEvent} {jiffies' : ℕ}
    {fired' : List TimerEvent}
    (hproc : ∀ t, (f t).proc = (s.task t).proc)
    (hnext : ∀ t ∈ q, (f t).next = (s.task t).next)
    (hq : ∀ t ∈ q, (f t).state = .ready)
    (hblk : ∀ t, (s.task t).state ≠ .blocked → (f t).state ≠ .blocked)
    (hsub : timer'.Sublist s.timer)
    (hev : ∀ e ∈ timer', ∀ t, (s.proc e.proc).task = some t → (f t).state = .blocked) :
    Core { s with task := f, timer := timer', jiffies := jiffies', fired := fired' } q where
  queue := h.queue.congr hnext
  ready t ht := ⟨hq t ht, (h.ready t ht).2⟩
  cur := by
    obtain ⟨c, hc, hb, ho⟩ := h.cur
    exact ⟨c, hc, hblk c hb, ho⟩
  next := h.next
  idle := by
    obtain ⟨i, hi, hp, hb⟩ := h.idle
    exact ⟨i, hi, (hproc i).trans hp, hblk i hb⟩
  table p hp := by
    obtain ⟨t, ht, hback⟩ := h.table p hp
    exact ⟨t, ht, (hproc t).trans hback⟩
  slots := h.slots
  events e he := ⟨(h.events e (hsub.subset he)).1, hev e he⟩
  once := h.once.sublist (hsub.map _)

/-- The first half of the clock handler: fired events leave the timer and their tasks are READY. -/
theorem clockTimers_core (h : Core s q) : Core (clockTimers s) q := by
  rw [clockTimers, fireTimers_eq]
  have hsplit := takeWhile_append_dropWhile (p := due (add64 s.jiffies 1)) (l := s.timer)
  have hwoken : ∀ t, wokenBy s (s.timer.takeWhile (due (add64 s.jiffies 1))) t = true →
      (s.task t).state = .blocked := by
    intro t ht
    obtain ⟨e, he, htask⟩ := any_eq_true.mp ht
    exact (h.events e ((takeWhile_sublist _).subset he)).2 t (by simpa using htask)
  refine h.change (fun t => ?_) (fun t _ => ?_) (fun t ht => ?_) (fun t ht => ?_)
    (dropWhile_sublist _) fun e he t ht => ?_
  · dsimp only; split <;> rfl
  · dsimp only; split <;> rfl
  · dsimp only; split
    · rfl
    · exact (h.ready t ht).1
  · dsimp only; split
    · simp
    · exact ht
  · -- an event that stays and one that fired belong to different processes
    have hmem := (dropWhile_sublist (due (add64 s.jiffies 1))).subset he
    rw [if_neg]
    · exact (h.events e hmem).2 t ht
    · intro hw
      obtain ⟨d, hd, hdt⟩ := any_eq_true.mp hw
      have hdmem := (takeWhile_sublist _).subset hd
      have heq : d.proc = e.proc := h.owner_unique (h.events d hdmem).1 (by simpa using hdt)
        (h.events e hmem).1 ht
      have honce := h.once
      rw [← hsplit, map_append] at honce
      exact (nodup_append.mp honce).2.2 _ (mem_map_of_mem hd) _ (mem_map_of_mem he) heq

theorem charge_core (h : Core s q) : Core (charge s) q := by
  obtain ⟨c, hc, -⟩ := h.cur
  rw [charge, hc]
  have heq : ∀ t, ∀ x, update s.task c { s.task c with credit := x } t =
      { s.task t with credit := if t = c then x else (s.task t).credit } := by
    intro t x
    by_cases htc : t = c
    · subst htc; simp
    · simp [htc]
  refine h.change (fun t => by rw [heq]) (fun t _ => by rw [heq])
    (fun t ht => by rw [heq]; exact (h.ready t ht).1) (fun t ht => by rw [heq]; exact ht)
    (List.Sublist.refl _) fun e he t ht => by rw [heq]; exact (h.events e he).2 t ht

/-- The READY tasks of the slots, in table order. -/
def readyTasks (s : Kernel) (slots : List (Option ℕ)) : List ℕ :=
  slots.filterMap fun slot => slot.bind fun p =>
    (s.proc p).task.filter fun t => (s.task t).state = .ready

/-- A slot without a READY task is passed over, any other pushes its task. -/
theorem schedSlot_cases (s : Kernel) (slot : Option ℕ) (slots : List (Option ℕ)) :
    (schedSlot s slot = s ∧ readyTasks s (slot :: slots) = readyTasks s slots) ∨
      ∃ t, schedSlot s slot = enqueue s t ∧
        readyTasks s (slot :: slots) = t :: readyTasks s slots := by
  cases slot with
  | none => exact Or.inl ⟨rfl, rfl⟩
  | some p =>
    cases htask : (s.proc p).task with
    | none => exact Or.inl ⟨by simp [schedSlot, htask], by simp [readyTasks, htask]⟩
    | some t =>
      by_cases hr : (s.task t).state = .ready
      · exact Or.inr ⟨t, by simp [schedSlot, htask, hr],
          by simp [readyTasks, htask, hr, Option.filter]⟩
      · exact Or.inl ⟨by simp [schedSlot, htask, hr],
          by simp [readyTasks, htask, hr, Option.filter]⟩

theorem enqueue_task (s : Kernel) (t u : ℕ) :
    ((enqueue s t).task u).state = (s.task u).state ∧ ((enqueue s t).task u).proc = (s.task u).proc ∧
      ((enqueue s t).task u).next = update (fun u => (s.task u).next) t s.runqueue u := by
  unfold enqueue Kernel.setTask
  by_cases hut : u = t
  · subst hut; simp
  · simp [hut]

theorem enqueue_queue (hq : RunQueue s q) {t : ℕ} (ht : t ∉ q) : RunQueue (enqueue s t) (t :: q) :=
  (Chain.push hq ht).congr fun u _ => (enqueue_task s t u).2.2

theorem readyTasks_enqueue (t : ℕ) (slots : List (Option ℕ)) :
    readyTasks (enqueue s t) slots = readyTasks s slots := by
  unfold readyTasks
  simp only [(enqueue_task s t _).1]
  rfl

/-- `s'` is `s` with the queue `q` linked up, states and owners as before. -/
def Refilled (s s' : Kernel) (q : List ℕ) : Prop :=
  ∃ task' rq', s' = { s with task := task', runqueue := rq' } ∧
    (∀ t, (task' t).state = (s.task t).state ∧ (task' t).proc = (s.task t).proc) ∧
    Chain (fun t => (task' t).next) rq' q

theorem schedSlots_spec : ∀ (slots : List (Option ℕ)) (s : Kernel) (q : List ℕ), RunQueue s q →
    (readyTasks s slots).Nodup → (∀ t ∈ readyTasks s slots, t ∉ q) →
    Refilled s (slots.foldl schedSlot s) ((readyTasks s slots).reverse ++ q)
  | [], s, q, hq, _, _ => ⟨s.task, s.runqueue, rfl, fun _ => ⟨rfl, rfl⟩, hq⟩
  | slot :: slots, s, q, hq, hnd, hdis => by
      rw [foldl_cons]
      rcases schedSlot_cases s slot slots with ⟨hs, hr⟩ | ⟨t, hs, hr⟩
      · rw [hr] at hnd hdis
        rw [hs, hr]
        exact schedSlots_spec slots s q hq hnd hdis
      · rw [hr] at hnd hdis
        obtain ⟨hnot, hnd'⟩ := nodup_cons.mp hnd
        have hdis' : ∀ u ∈ readyTasks s slots, u ∉ t :: q := by
          intro u hu
          rw [mem_cons, not_or]
          exact ⟨fun hut => hnot (hut ▸ hu), hdis u (mem_cons_of_mem _ hu)⟩
        obtain ⟨task', rq', heq, hst, hch⟩ := schedSlots_spec slots (enqueue s t) (t :: q)
          (enqueue_queue hq (hdis t mem_cons_self))
          (by rw [readyTasks_enqueue]; exact hnd') (by rw [readyTasks_enqueue]; exact hdis')
        rw [readyTasks_enqueue] at hch
        refine ⟨task', rq', by rw [hs, heq]; rfl, fun u => ?_, ?_⟩
        · obtain ⟨h1, h2, -⟩ := enqueue_task s t u
          exact ⟨(hst u).1.trans h1, (hst u).2.trans h2⟩
        · rw [hr, reverse_cons, append_assoc]
          exact hch

theorem mem_readyTasks {t : ℕ} : t ∈ readyTasks s s.procs ↔ Owned s t ∧ (s.task t).state = .ready := by
  unfold readyTasks
  simp only [mem_filterMap, Option.bind_eq_some_iff, Option.filter_eq_some_iff,
    decide_eq_true_eq]
  constructor
  · rintro ⟨slot, hslot, p, rfl, ht, hr⟩
    exact ⟨⟨p, hslot, ht⟩, hr⟩
  · rintro ⟨⟨p, hslot, ht⟩, hr⟩
    exact ⟨some p, hslot, p, rfl, ht, hr⟩

theorem Core.readyTasks_nodup (h : Core s q) : (readyTasks s s.procs).Nodup := by
  have hslots := pairwise_filterMap.mp h.slots
  refine pairwise_filterMap.mpr (hslots.imp_of_mem ?_)
  intro a b ha hb hab t ht u hu htu
  subst htu
  simp only [Option.bind_eq_some_iff, Option.filter_eq_some_iff] at ht hu
  obtain ⟨p, rfl, htp, -⟩ := ht
  obtain ⟨p', rfl, htp', -⟩ := hu
  exact hab p rfl p' rfl (h.owner_unique ha htp hb htp')

theorem schedSchedule_spec (h : Core s q) (hnone : s.runqueue = none) :
    Refilled s (schedSchedule s) (readyTasks s s.procs).reverse := by
  have hq : RunQueue s [] := hnone
  have := schedSlots_spec s.procs s [] hq h.readyTasks_nodup (by simp)
  rwa [append_nil] at this

theorem Refilled.core {s' : Kernel} {q' : List ℕ} (hr : Refilled s s' q') (h : Core s q)
    (hq' : ∀ t ∈ q', (s.task t).state = .ready ∧ Owned s t) : Core s' q' := by
  obtain ⟨task', rq', rfl, hst, hch⟩ := hr
  refine ⟨hch, fun t ht => ⟨(hst t).1.trans (hq' t ht).1, (hq' t ht).2⟩, ?_, h.next, ?_, ?_, h.slots,
    ?_, h.once⟩
  · obtain ⟨c, hc, hb, ho⟩ := h.cur
    exact ⟨c, hc, by rw [(hst c).1]; exact hb, ho⟩
  · obtain ⟨i, hi, hp, hb⟩ := h.idle
    exact ⟨i, hi, by rw [(hst i).2]; exact hp, by rw [(hst i).1]; exact hb⟩
  · intro p hp
    obtain ⟨t, ht, hback⟩ := h.table p hp
    exact ⟨t, ht, by rw [(hst t).2]; exact hback⟩
  · intro e he
    exact ⟨(h.events e he).1, fun t ht => by rw [(hst t).1]; exact (h.events e he).2 t ht⟩

theorem setState_task (s : Kernel) (c t : ℕ) (st : TaskState) : (s.setState c st).task t =
    { s.task t with state := if t = c then st else (s.task t).state } := by
  unfold Kernel.setState Kernel.setTask
  by_cases htc : t = c
  · subst htc; simp
  · simp [htc]

/-- Changing the state of a task that is not BLOCKED, to something other than BLOCKED. -/
theorem Core.setState (h : Core s q) {c : ℕ} {st : TaskState} (hc : (s.task c).state ≠ .blocked)
    (hst : st ≠ .blocked) (hq : c ∈ q → st = .ready) : Core (s.setState c st) q := by
  refine h.change (f := (s.setState c st).task) (fun t => ?_) (fun t _ => ?_) (fun t ht => ?_)
    (fun t ht => ?_) (List.Sublist.refl _) fun e he t ht => ?_ <;> rw [setState_task]
  · split
    · rename_i htc; subst htc; exact hq ht
    · exact (h.ready t ht).1
  · split
    · exact hst
    · exact ht
  · rw [if_neg]
    · exact (h.events e he).2 t ht
    · rintro rfl
      exact h.no_event hc he ht

theorem preempt_core (h : Core s q) : Core (preempt s) q := by
  obtain ⟨c, hc, hb, -⟩ := h.cur
  rw [preempt, hc]
  exact h.setState hb (by simp) fun _ => rfl

/-- The last part of a tick: the head of the queue, or the idle task, becomes current. -/
theorem dispatch_inv (h : Core s q) : Inv (taskRestart (dispatch s)) q.tail := by
  cases hrq : s.runqueue with
  | none =>
    obtain rfl : q = [] := Chain.eq_nil (by rw [← hrq]; exact h.queue)
    obtain ⟨i, hi, hp, hb⟩ := h.idle
    have hd : taskRestart (dispatch s) = { s with curTask := some i, nextTask := none } := by
      simp [dispatch, hrq, taskRestart, hi]
    rw [hd]
    exact ⟨⟨h.queue, by simp, ⟨i, rfl, hb, Or.inr hi⟩, rfl, ⟨i, hi, hp, hb⟩, h.table, h.slots,
      h.events, h.once⟩, by simp⟩
  | some t =>
    obtain ⟨rest, rfl, hrest⟩ := Chain.pop (by rw [← hrq]; exact h.queue)
    obtain ⟨htr, hto⟩ := h.ready t mem_cons_self
    obtain ⟨hnot, hnd⟩ := nodup_cons.mp h.queue.nodup
    have hd : taskRestart (dispatch s) = { s.setState t .running with
        runqueue := (s.task t).next, curTask := some t, nextTask := none } := by
      simp [dispatch, hrq, taskRestart]
    -- popping `t` leaves a queue it is not in
    have hcore : Core { s with runqueue := (s.task t).next } rest :=
      ⟨hrest, fun u hu => h.ready u (mem_cons_of_mem _ hu), h.cur, h.next, h.idle, h.table,
        h.slots, h.events, h.once⟩
    have hrun : Core (({ s with runqueue := (s.task t).next } : Kernel).setState t .running) rest :=
      hcore.setState (by rw [htr]; simp) (by simp) fun hmem => absurd hmem hnot
    rw [hd, tail_cons]
    refine ⟨⟨hrun.queue, hrun.ready, ⟨t, rfl, ?_, Or.inl hto⟩, rfl, hrun.idle, hrun.table, hrun.slots,
      hrun.events, hrun.once⟩, ?_⟩
    · rw [setState_task, if_pos rfl]; simp
    · rintro c hc
      cases hc
      exact hnot

/-- The refill: nothing while the queue has tasks, then all the READY tasks of the table. -/
theorem refill_core (h : Core s q) :
    ∃ q', Core (if s.runqueue = none then schedSchedule s else s) q' := by
  by_cases hrq : s.runqueue = none
  · rw [if_pos hrq]
    refine ⟨_, (schedSchedule_spec h hrq).core h fun t ht => ?_⟩
    obtain ⟨ho, hr⟩ := mem_readyTasks.mp (mem_reverse.mp ht)
    exact ⟨hr, ho⟩
  · rw [if_neg hrq]; exact ⟨q, h⟩

end Parts

/-! ### Steps and runs -/

variable {s : Kernel} {q : List ℕ}

theorem tick_inv (h : Inv s q) : ∃ q', Inv (tick s) q' := by
  have hcur : (charge (clockTimers s)).curTask = s.curTask := by
    rw [clockTimers, fireTimers_eq, charge]
    cases s.curTask <;> rfl
  have hcore := charge_core (clockTimers_core h.toCore)
  unfold tick ksignalClock
  by_cases hkeep : keepsCpu (charge (clockTimers s)) = true
  · rw [if_pos hkeep, taskRestart, hcore.next]
    exact ⟨q, hcore, fun c hc => h.running c (by rw [← hcur]; exact hc)⟩
  · rw [if_neg hkeep]
    obtain ⟨q', hq'⟩ := refill_core hcore
    exact ⟨_, dispatch_inv (preempt_core hq')⟩

theorem Core.caller (h : Core s q) {t : ℕ} (hc : Calls s t) :
    ∃ p, (s.task t).proc = some p ∧ some p ∈ s.procs ∧ (s.proc p).task = some t ∧
      (s.task t).state ≠ .blocked ∧ s.idleTask ≠ some t := by
  obtain ⟨hcur, hproc, -⟩ := hc
  obtain ⟨p, hp⟩ := Option.ne_none_iff_exists'.mp hproc
  obtain ⟨c, hc', hb, ho⟩ := h.cur
  obtain rfl : t = c := Option.some.inj (hcur.symm.trans hc')
  have hidle : s.idleTask ≠ some t := by
    intro hi
    obtain ⟨i, hi', hpi, -⟩ := h.idle
    obtain rfl : t = i := Option.some.inj (hi.symm.trans hi')
    exact hproc hpi
  obtain ⟨hmem, htask⟩ := h.owner hp (ho.resolve_right hidle)
  exact ⟨p, hp, hmem, htask, hb, hidle⟩

theorem insertEvent_perm (e : TimerEvent) : ∀ l : List TimerEvent, (insertEvent e l).Perm (e :: l)
  | [] => List.Perm.refl _
  | d :: ds => by
      rw [insertEvent]
      split
      · exact ((insertEvent_perm e ds).cons d).trans (List.Perm.swap e d ds)
      · exact List.Perm.refl _

/-- A sleep: the caller is BLOCKED with one pending event, and the idle task runs. -/
theorem nanosleep_eq (h : Core s q) {t p : ℕ} (hcur : s.curTask = some t) (hp : (s.task t).proc = some p)
    (tvSec tvNsec : ℤ) :
    sysNanosleep true tvSec tvNsec s = { s.setState t .blocked with
      timer := insertEvent ⟨fireTime s.jiffies tvSec tvNsec, p⟩ s.timer
      slept := ⟨fireTime s.jiffies tvSec tvNsec, p⟩ :: s.slept
      curTask := s.idleTask } := by
  simp [sysNanosleep, taskSwitch, hcur, hp, Kernel.setState, Kernel.setTask, h.next]

theorem nanosleep_inv (h : Inv s q) {t : ℕ} (hc : Calls s t) (slab : Bool) (tvSec tvNsec : ℤ) :
    Inv (sysNanosleep slab tvSec tvNsec s) q := by
  obtain ⟨p, hp, hmem, htask, hb, hidle⟩ := h.caller hc
  cases slab with
  | false => simpa [sysNanosleep, hc.1, hp] using h
  | true =>
    have htq := h.running t hc.1
    obtain ⟨i, hi, hpi, hbi⟩ := h.idle
    have hit : i ≠ t := by rintro rfl; exact hidle hi
    rw [nanosleep_eq h.toCore hc.1 hp]
    refine ⟨⟨?_, fun u hu => ?_, ⟨i, hi, ?_, Or.inr hi⟩, h.next, ⟨i, hi, ?_, ?_⟩, fun p' hp' => ?_,
      h.slots, fun e he => ?_, ?_⟩, fun c hcc => ?_⟩
    · exact h.queue.congr fun u _ => by rw [setState_task]
    · have hut : u ≠ t := by rintro rfl; exact htq hu
      rw [setState_task, if_neg hut]
      exact h.ready u hu
    · rw [setState_task, if_neg hit]; exact hbi
    · rw [setState_task]; exact hpi
    · rw [setState_task, if_neg hit]; exact hbi
    · obtain ⟨u, hu, hback⟩ := h.table p' hp'
      exact ⟨u, hu, by rw [setState_task]; exact hback⟩
    · rcases mem_cons.mp ((insertEvent_perm _ _).subset he) with rfl | he
      · refine ⟨hmem, fun u hu => ?_⟩
        obtain rfl : t = u := Option.some.inj (htask.symm.trans hu)
        rw [setState_task, if_pos rfl]
      · refine ⟨(h.events e he).1, fun u hu => ?_⟩
        rw [setState_task]
        split
        · rfl
        · exact (h.events e he).2 u hu
    · -- the caller had no event pending: it was not BLOCKED
      refine (((insertEvent_perm _ _).map _).nodup_iff).mpr (nodup_cons.mpr ⟨fun hp' => ?_, h.once⟩)
      obtain ⟨e, he, hep⟩ := mem_map.mp hp'
      exact h.no_event hb he (by rw [hep]; exact htask)
    · exact h.idle_notMem hcc

variable {procs : List (Option ℕ)}

theorem freeSlot_spec {i : ℕ} (h : freeSlot procs = some i) :
    i ≤ procs.length ∧ ∀ hi : i < procs.length, procs[i] = none := by
  unfold freeSlot at h
  split at h
  · cases h
    refine ⟨findIdx_le_length, fun hi => ?_⟩
    have := findIdx_getElem (w := hi)
    simpa using this
  · simp at h

theorem setSlot_perm {i : ℕ} (h : freeSlot procs = some i) (p : ℕ) :
    ((setSlot procs i p).filterMap id).Perm (p :: procs.filterMap id) := by
  obtain ⟨hle, hnone⟩ := freeSlot_spec h
  unfold setSlot
  split
  · rename_i hi
    have hnone := hnone hi
    rw [set_eq_take_append_cons_drop, if_pos hi]
    have hsplit : procs = procs.take i ++ none :: procs.drop (i + 1) := by
      rw [← hnone, getElem_cons_drop, take_append_drop]
    conv_rhs => rw [hsplit]
    simp only [filterMap_append, filterMap_cons, id_eq]
    exact perm_middle
  · simp only [filterMap_append, filterMap_cons, id_eq, filterMap_nil]
    exact perm_append_singleton _ _

theorem mem_setSlot {i : ℕ} (h : freeSlot procs = some i) (p r : ℕ) :
    some r ∈ setSlot procs i p ↔ r = p ∨ some r ∈ procs := by
  have := (setSlot_perm h p).mem_iff (a := r)
  simpa using this

theorem fork_cases (s : Kernel) (mem : Option (ℕ × ℕ)) : (sysForkC mem s).2 = s ∨
    ∃ parent i p c, freeSlot s.procs = some i ∧ mem = some (p, c) ∧
      (sysForkC mem s).2 = addChild s parent i p c := by
  unfold sysForkC
  cases s.curTask with
  | none => exact Or.inl rfl
  | some t =>
    cases hp : (s.task t).proc with
    | none => exact Or.inl (by simp [hp])
    | some parent =>
      cases hslot : freeSlot s.procs with
      | none => exact Or.inl (by simp [hp])
      | some i =>
        cases mem with
        | none => exact Or.inl (by simp [hp])
        | some pc => exact Or.inr ⟨parent, i, pc.1, pc.2, rfl, rfl, by simp [hp]⟩

section Child
variable {s : Kernel} {q : List ℕ} {parent i p c : ℕ}

theorem addChild_task {u : ℕ} (hu : u ≠ c) : (addChild s parent i p c).task u = s.task u :=
  update_of_ne hu _ _

theorem addChild_proc {r : ℕ} (hr : r ≠ p) : (addChild s parent i p c).proc r = s.proc r :=
  update_of_ne hr _ _

theorem Fresh.owned (hf : Fresh s p c) {u : ℕ} (hu : Owned s u) : u ≠ c := by
  obtain ⟨r, hr, ht⟩ := hu
  rintro rfl
  exact hf.2.1 r hr ht

theorem Fresh.slot (hf : Fresh s p c) {r : ℕ} (hr : some r ∈ s.procs) : r ≠ p := by
  rintro rfl
  exact hf.1 hr

theorem Owned.addChild (hi : freeSlot s.procs = some i) (hf : Fresh s p c) {u : ℕ} (h : Owned s u) :
    Owned (addChild s parent i p c) u := by
  obtain ⟨r, hr, ht⟩ := h
  exact ⟨r, (mem_setSlot hi p r).mpr (Or.inr hr), by rw [addChild_proc (hf.slot hr)]; exact ht⟩

/-- The new cells are none of those in use, so all that was said of them still holds. -/
theorem addChild_inv (h : Inv s q) (hslot : freeSlot s.procs = some i) (hf : Fresh s p c) :
    Inv (addChild s parent i p c) q := by
  obtain ⟨cur, hcur, hcb, hco⟩ := h.cur
  obtain ⟨idle, hi, hpi, hbi⟩ := h.idle
  have hic : idle ≠ c := by rintro rfl; exact hf.2.2 hi
  have hcc : cur ≠ c := by
    rcases hco with ho | ho
    · exact hf.owned ho
    · rintro rfl; exact hf.2.2 ho
  refine ⟨⟨?_, fun u hu => ?_, ⟨cur, hcur, ?_, ?_⟩, h.next, ⟨idle, hi, ?_, ?_⟩, fun r hr => ?_, ?_,
    fun e he => ?_, h.once⟩, h.running⟩
  · exact h.queue.congr fun u hu => by rw [addChild_task (hf.owned (h.ready u hu).2)]
  · rw [addChild_task (hf.owned (h.ready u hu).2)]
    exact ⟨(h.ready u hu).1, (h.ready u hu).2.addChild hslot hf⟩
  · rw [addChild_task hcc]; exact hcb
  · exact hco.imp_left (Owned.addChild hslot hf)
  · rw [addChild_task hic]; exact hpi
  · rw [addChild_task hic]; exact hbi
  · rcases (mem_setSlot hslot p r).mp hr with rfl | hr
    · exact ⟨c, by simp [addChild], by simp [addChild, Kernel.setTask]⟩
    · obtain ⟨u, hu, hback⟩ := h.table r hr
      refine ⟨u, by rw [addChild_proc (hf.slot hr)]; exact hu, ?_⟩
      rw [addChild_task (hf.owned ⟨r, hr, hu⟩)]; exact hback
  · refine ((setSlot_perm hslot p).nodup_iff).mpr (nodup_cons.mpr ⟨?_, h.slots⟩)
    simpa using hf.1
  · obtain ⟨he1, he2⟩ := h.events e he
    refine ⟨(mem_setSlot hslot p _).mpr (Or.inr he1), fun u hu => ?_⟩
    rw [addChild_proc (hf.slot he1)] at hu
    rw [addChild_task (hf.owned ⟨_, he1, hu⟩)]
    exact he2 u hu

theorem fork_inv (h : Inv s q) {mem : Option (ℕ × ℕ)} (hm : ∀ p c, mem = some (p, c) → Fresh s p c) :
    Inv (sysForkC mem s).2 q := by
  rcases fork_cases s mem with heq | ⟨parent, i, p, c, hslot, hmem, heq⟩
  · rw [heq]; exact h
  · rw [heq]; exact addChild_inv h hslot (hm p c hmem)

end Child

theorem exit_inv (h : Inv s q) {t : ℕ} (hc : Calls s t) (status : ℤ) :
    Inv (sysExit status s) q := by
  obtain ⟨p, hp, hmem, htask, hb, hidle⟩ := h.caller hc
  have hset : Core (s.setState t .terminated) q :=
    h.toCore.setState hb (by simp) fun hq => absurd hq (h.running t hc.1)
  have hproc : ∀ r, (update s.proc p { s.proc p with exitStatus := status } r).task =
      (s.proc r).task := by
    intro r
    by_cases hr : r = p
    · subst hr; simp
    · simp [hr]
  have heq : sysExit status s = { s.setState t .terminated with
      proc := update s.proc p { s.proc p with exitStatus := status }
      halted := t :: s.halted } := by simp [sysExit, hc.1, hp]
  have hown : ∀ u, Owned (s.setState t .terminated) u → Owned (sysExit status s) u := by
    rintro u ⟨r, hr, hu⟩
    rw [heq]
    exact ⟨r, hr, (hproc r).trans hu⟩
  rw [heq] at hown ⊢
  refine ⟨⟨hset.queue, fun u hu => ⟨(hset.ready u hu).1, hown u (hset.ready u hu).2⟩, ?_, hset.next,
    hset.idle, fun r hr => ?_, hset.slots, fun e he => ⟨(hset.events e he).1, fun u hu => ?_⟩,
    hset.once⟩, h.running⟩
  · obtain ⟨c, hc', hcb, hco⟩ := hset.cur
    exact ⟨c, hc', hcb, hco.imp_left (hown c)⟩
  · obtain ⟨u, hu, hback⟩ := hset.table r hr
    exact ⟨u, (hproc r).trans hu, hback⟩
  · exact (hset.events e he).2 u ((hproc e.proc).symm.trans hu)

theorem step_inv {ok : Kernel → Prop} {s s' : Kernel} (h : ∃ q, Inv s q) (hst : Step ok s s') :
    ∃ q, Inv s' q := by
  obtain ⟨q, h⟩ := h
  cases hst with
  | tick => exact tick_inv h
  | nanosleep t hc slab tvSec tvNsec => exact ⟨q, nanosleep_inv h hc slab tvSec tvNsec⟩
  | fork t hc mem hm => exact ⟨q, fork_inv h hm⟩
  | exit t hc status => exact ⟨q, exit_inv h hc status⟩

theorem boot_inv (b : Boot) : Inv b.state [] := by
  have hst : b.state = { b.prepared with curTask := some b.init, nextTask := none } := rfl
  have hown : Owned b.state b.init := ⟨b.initProc, mem_singleton.mpr rfl, rfl⟩
  refine ⟨⟨rfl, by simp, ⟨b.init, rfl, ?_, Or.inl hown⟩, rfl, ⟨b.idle, rfl, ?_, ?_⟩, fun p hp => ?_, ?_,
    by simp [hst, Boot.prepared], by simp [hst, Boot.prepared]⟩, by simp⟩
  · simp [hst, Boot.prepared]
  · simp [hst, Boot.prepared, b.distinct]
  · simp [hst, Boot.prepared, b.distinct]
  · refine ⟨b.init, rfl, ?_⟩
    obtain rfl : p = b.initProc := by simpa [hst, Boot.prepared] using hp
    simp [hst, Boot.prepared]
  · simp [hst, Boot.prepared]

theorem run_inv {ok : Kernel → Prop} {b : Boot} (hr : Relation.ReflTransGen (Step ok) b.state s) :
    ∃ q, Inv s q :=
  Run.invariant (P := fun s => ∃ q, Inv s q) hr ⟨[], boot_inv b⟩ fun _ _ h hst => step_inv h hst

/-! ### The run queue in every run -/

/-- The queue is a finite list without duplicates of READY tasks of processes in the table; neither
    the idle task nor the current one is in it. -/
structure QueueIntact (s : Kernel) (q : List ℕ) : Prop where
  queue : RunQueue s q
  nodup : q.Nodup
  ready : ∀ t ∈ q, (s.task t).state = .ready
  owned : ∀ t ∈ q, ∃ p, some p ∈ s.procs ∧ (s.proc p).task = some t
  idle : ∀ t ∈ q, s.idleTask ≠ some t
  current : ∀ t ∈ q, s.curTask ≠ some t

theorem runqueue_intact {b : Boot} {s : Kernel} (hr : Reach b s) : ∃ q, QueueIntact s q := by
  obtain ⟨q, h⟩ := run_inv hr
  exact ⟨q, h.queue, h.queue.nodup, fun t ht => (h.ready t ht).1, fun t ht => (h.ready t ht).2,
    fun t ht hi => h.idle_notMem hi ht, fun t ht hc => h.running t hc ht⟩

/-- The boot state with the idle task at address 0 and `init` at 1. -/
def lowBoot : Boot := ⟨0, 1, 1, by decide⟩

theorem lowBoot_calls : Calls lowBoot.state 1 := by
  refine ⟨rfl, ?_, not_mem_nil⟩
  decide

theorem lowBoot_fork :
    Step (fun _ => True) lowBoot.state (sysForkC (some (2, 2)) lowBoot.state).2 := by
  refine Step.fork _ 1 lowBoot_calls _ fun p c hpc => ?_
  obtain ⟨rfl, rfl⟩ : p = 2 ∧ c = 2 := by simpa [eq_comm] using hpc
  refine ⟨by decide, fun q hq => ?_, by decide⟩
  obtain rfl : q = 1 := by simpa [Boot.state, taskRestart, Boot.prepared, lowBoot] using hq
  decide

theorem runqueue_intact_forked :
    Reach lowBoot (tick (sysForkC (some (2, 2)) lowBoot.state).2) ∧
      ∃ q, QueueIntact (tick (sysForkC (some (2, 2)) lowBoot.state).2) q := by
  have hr : Reach lowBoot (tick (sysForkC (some (2, 2)) lowBoot.state).2) :=
    (Relation.ReflTransGen.single lowBoot_fork).tail (Step.tick _ trivial)
  exact ⟨hr, runqueue_intact hr⟩

example : (tick (sysForkC (some (2, 2)) lowBoot.state).2).curTask = some 2 ∧
    (tick (sysForkC (some (2, 2)) lowBoot.state).2).runqueue = some 1 := by decide

end Advos.Sched
