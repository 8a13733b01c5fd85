import Advos.Sched.Queue

/-! Sleeping and waking.

    `sys_nanosleep` goes past the events that end later, so the timer is sorted with the latest event
    in front; `ksignal_clock` expires from the front. A tick is therefore exact when the pending
    events are all due or none is, and otherwise fires nothing:

        timer ──▶ 100 ──▶ 1        tick 2: event 1 is due, event 100 is in front of it

    No event is lost or fired twice in any run. -/

namespace Advos.Sched
open Linked Word Relation List

/-! ### What a tick does to task states -/

section TickState
variable {s : Kernel} {q : List ℕ}

theorem clockTimers_cur : (charge (clockTimers s)).curTask = s.curTask := by
  rw [clockTimers, fireTimers_eq, charge]
  cases s.curTask <;> rfl

theorem charge_state (t : ℕ) : ((charge s).task t).state = (s.task t).state := by
  unfold charge
  cases s.curTask with
  | none => rfl
  | some c =>
    by_cases htc : t = c
    · subst htc; simp [Kernel.setTask]
    · simp [Kernel.setTask, htc]

theorem preempt_state (t : ℕ) : ((preempt s).task t).state =
    if s.curTask = some t then .ready else (s.task t).state := by
  unfold preempt
  cases hc : s.curTask with
  | none => simp
  | some c =>
    simp only [setState_task, Option.some.injEq]
    by_cases htc : t = c
    · subst htc; simp
    · simp [htc, Ne.symm htc]

theorem dispatch_state (t : ℕ) : ((taskRestart (dispatch s)).task t).state =
    if s.runqueue = some t then .running else (s.task t).state := by
  cases hrq : s.runqueue with
  | none => simp [dispatch, hrq, taskRestart]; split <;> rfl
  | some u =>
    have : (taskRestart (dispatch s)).task = (s.setState u .running).task := by
      simp [dispatch, hrq, taskRestart]
    rw [this, setState_task]
    simp only [Option.some.injEq, eq_comm]

theorem dispatch_cur {t : ℕ} (h : s.runqueue = some t) :
    (taskRestart (dispatch s)).curTask = some t := by
  simp [dispatch, h, taskRestart]

/-- The state at the refill: the queue may be new, all else is as the charge left it. -/
theorem refill_frame (h : Core s q) :
    ∃ task' rq', (if s.runqueue = none then schedSchedule s else s) =
      { s with task := task', runqueue := rq' } ∧ ∀ t, (task' t).state = (s.task t).state := by
  by_cases hrq : s.runqueue = none
  · rw [if_pos hrq]
    obtain ⟨task', rq', heq, hst, -⟩ := schedSchedule_spec h hrq
    exact ⟨task', rq', heq, fun t => (hst t).1⟩
  · rw [if_neg hrq]
    exact ⟨s.task, s.runqueue, rfl, fun _ => rfl⟩

/-- After the timers a tick changes two tasks at most: the current one is READY if it loses the
    processor, and a READY one runs. -/
theorem tick_state (h : Inv s q) (t : ℕ) :
    ((tick s).task t).state = ((clockTimers s).task t).state ∨
      (s.curTask = some t ∧ ((tick s).task t).state = .ready) ∨
      (((clockTimers s).task t).state = .ready ∨ s.curTask = some t) ∧
        ((tick s).task t).state = .running ∧ (tick s).curTask = some t := by
  have hcore := charge_core (clockTimers_core h.toCore)
  unfold tick ksignalClock
  dsimp only
  by_cases hkeep : keepsCpu (charge (clockTimers s)) = true
  · rw [if_pos hkeep, taskRestart, hcore.next]
    exact Or.inl (charge_state t)
  · rw [if_neg hkeep]
    obtain ⟨q', hq'⟩ := refill_core hcore
    obtain ⟨task', rq', heq, hst⟩ := refill_frame hcore
    rw [heq] at hq' ⊢
    have hpre := preempt_core hq'
    have hstate : ∀ u, ((preempt { charge (clockTimers s) with
        task := task', runqueue := rq' }).task u).state =
        if s.curTask = some u then .ready else ((clockTimers s).task u).state := by
      intro u
      rw [preempt_state]
      simp only [clockTimers_cur, hst, charge_state]
    generalize preempt { charge (clockTimers s) with task := task', runqueue := rq' } = s2 at *
    rw [dispatch_state]
    by_cases hhead : s2.runqueue = some t
    · -- the head of the queue is READY
      rw [if_pos hhead]
      refine Or.inr (Or.inr ⟨?_, rfl, dispatch_cur hhead⟩)
      obtain ⟨rest, hrest, -⟩ := Chain.pop (by rw [← hhead]; exact hpre.queue)
      have hr := (hpre.ready t (by rw [hrest]; exact mem_cons_self ..)).1
      rw [hstate] at hr
      by_cases hc : s.curTask = some t
      · exact Or.inr hc
      · rw [if_neg hc] at hr; exact Or.inl hr
    · rw [if_neg hhead, hstate]
      by_cases hc : s.curTask = some t
      · exact Or.inr (Or.inl ⟨hc, if_pos hc⟩)
      · exact Or.inl (if_neg hc)

end TickState

/-! ### What a step does to the timer -/

/-- The time, the pending events and their history. -/
def timing (s : Kernel) : ℕ × List TimerEvent × List TimerEvent × List TimerEvent :=
  (s.jiffies, s.timer, s.fired, s.slept)

section Timing
variable (s : Kernel)

@[simp] theorem timing_charge : timing (charge s) = timing s := by unfold charge; split <;> rfl

@[simp] theorem timing_preempt : timing (preempt s) = timing s := by unfold preempt; split <;> rfl

@[simp] theorem timing_dispatch : timing (dispatch s) = timing s := by unfold dispatch; split <;> rfl

@[simp] theorem timing_taskRestart : timing (taskRestart s) = timing s := by
  unfold taskRestart; split <;> rfl

theorem timing_sysForkC (mem : Option (ℕ × ℕ)) : timing (sysForkC mem s).2 = timing s := by
  rcases fork_cases s mem with heq | ⟨parent, i, p, c, -, -, heq⟩ <;> rw [heq]
  rfl

theorem timing_sysExit (status : ℤ) : timing (sysExit status s) = timing s := by
  unfold sysExit
  split
  · rfl
  · split <;> rfl

end Timing

theorem timing_tick {s : Kernel} {q : List ℕ} (h : Inv s q) : timing (tick s) =
    (add64 s.jiffies 1, s.timer.dropWhile (due (add64 s.jiffies 1)),
      (s.timer.takeWhile (due (add64 s.jiffies 1))).reverse ++ s.fired, s.slept) := by
  have hclock : timing (clockTimers s) = (add64 s.jiffies 1,
      s.timer.dropWhile (due (add64 s.jiffies 1)),
      (s.timer.takeWhile (due (add64 s.jiffies 1))).reverse ++ s.fired, s.slept) := by
    rw [clockTimers, fireTimers_eq]; rfl
  obtain ⟨task', rq', heq, -⟩ := refill_frame (charge_core (clockTimers_core h.toCore))
  unfold tick ksignalClock
  dsimp only
  rw [timing_taskRestart, ← hclock]
  split
  · exact timing_charge _
  · rw [timing_dispatch, timing_preempt, heq]
    exact timing_charge (clockTimers s)

/-- The pending events are sorted, the latest first, and every event set up so far is pending or has
    fired, once. -/
structure Logged (s : Kernel) : Prop where
  sorted : s.timer.Pairwise fun a b => b.jiffies ≤ a.jiffies
  log : s.slept.Perm (s.fired ++ s.timer)

theorem Logged.of_timing {s s' : Kernel} (h : Logged s) (heq : timing s' = timing s) : Logged s' := by
  simp only [timing, Prod.mk.injEq] at heq
  obtain ⟨-, h2, h3, h4⟩ := heq
  exact ⟨by rw [h2]; exact h.sorted, by rw [h2, h3, h4]; exact h.log⟩

theorem insertEvent_sorted (e : TimerEvent) : ∀ {l : List TimerEvent},
    l.Pairwise (fun a b => b.jiffies ≤ a.jiffies) →
    (insertEvent e l).Pairwise fun a b => b.jiffies ≤ a.jiffies
  | [], _ => pairwise_singleton _ _
  | d :: ds, h => by
      obtain ⟨hd, hds⟩ := pairwise_cons.mp h
      rw [insertEvent]
      split
      · rename_i hlt
        refine pairwise_cons.mpr ⟨fun a ha => ?_, insertEvent_sorted e hds⟩
        rcases mem_cons.mp ((insertEvent_perm e ds).subset ha) with rfl | ha
        · exact le_of_lt hlt
        · exact hd a ha
      · rename_i hge
        refine pairwise_cons.mpr ⟨fun a ha => ?_, h⟩
        rcases mem_cons.mp ha with rfl | ha
        · exact Nat.le_of_not_lt hge
        · exact le_trans (hd a ha) (Nat.le_of_not_lt hge)

theorem step_logged {ok : Kernel → Prop} {s s' : Kernel} (hinv : ∃ q, Inv s q) (h : Logged s)
    (hst : Step ok s s') : Logged s' := by
  obtain ⟨q, hinv⟩ := hinv
  cases hst with
  | tick =>
    have heq := timing_tick hinv
    simp only [timing, Prod.mk.injEq] at heq
    obtain ⟨-, h2, h3, h4⟩ := heq
    refine ⟨?_, ?_⟩
    · rw [h2]; exact h.sorted.sublist (dropWhile_sublist _)
    · rw [h2, h3, h4]
      have hsplit := takeWhile_append_dropWhile (p := due (add64 s.jiffies 1)) (l := s.timer)
      calc s.slept.Perm (s.fired ++ s.timer) := h.log
        _ = s.fired ++ (s.timer.takeWhile (due (add64 s.jiffies 1)) ++
              s.timer.dropWhile (due (add64 s.jiffies 1))) := by rw [hsplit]
        List.Perm _ ((s.timer.takeWhile (due (add64 s.jiffies 1))).reverse ++ s.fired ++
              s.timer.dropWhile (due (add64 s.jiffies 1))) := by
            rw [← append_assoc]
            exact (perm_append_comm.trans
              ((reverse_perm _).symm.append_right _)).append_right _
  | nanosleep t hc slab tvSec tvNsec =>
    obtain ⟨p, hp, -⟩ := hinv.caller hc
    cases slab with
    | false => simpa [sysNanosleep, hc.1, hp] using h
    | true =>
      rw [nanosleep_eq hinv.toCore hc.1 hp]
      refine ⟨insertEvent_sorted _ h.sorted, ?_⟩
      exact ((h.log.cons _).trans perm_middle.symm).trans
        ((insertEvent_perm _ _).symm.append_left _)
  | fork t hc mem hm => exact h.of_timing (timing_sysForkC s mem)
  | exit t hc status => exact h.of_timing (timing_sysExit s status)

theorem run_logged {ok : Kernel → Prop} {b : Boot} {s : Kernel}
    (hr : ReflTransGen (Step ok) b.state s) : Logged s := by
  have h0 : Logged b.state := ⟨List.Pairwise.nil, List.Perm.refl _⟩
  exact (Run.invariant (P := fun s => (∃ q, Inv s q) ∧ Logged s) hr ⟨⟨[], boot_inv b⟩, h0⟩
    fun _ _ ⟨hi, hl⟩ hst => ⟨step_inv hi hst, step_logged hi hl hst⟩).2

/-! ### Exact wake-ups -/

/-- What the tick out of `s` should do: no event in the past stays pending, every process whose event
    was due is READY, or runs already, and nobody else is woken. -/
structure WakesExactly (s : Kernel) : Prop where
  none_left : ∀ e ∈ (tick s).timer, ¬ e.jiffies < (tick s).jiffies
  woken : ∀ e ∈ s.timer, e.jiffies < (tick s).jiffies → ∃ t, (s.proc e.proc).task = some t ∧
    (((tick s).task t).state = .ready ∨
      ((tick s).task t).state = .running ∧ (tick s).curTask = some t)
  not_early : ∀ t, (s.task t).state = .blocked → ((tick s).task t).state ≠ .blocked →
    ∃ e ∈ s.timer, (s.proc e.proc).task = some t ∧ e.jiffies < (tick s).jiffies

/-- At the next tick the pending events are all due, or none is. -/
def SameSide (s : Kernel) : Prop :=
  (∀ e ∈ s.timer, e.jiffies < add64 s.jiffies 1) ∨ ∀ e ∈ s.timer, ¬ e.jiffies < add64 s.jiffies 1

/-- With an event that is not due anywhere in the timer the expiry loop stops at once. -/
theorem dropWhile_of_not_due {now : ℕ} {l : List TimerEvent}
    (hs : l.Pairwise fun a b => b.jiffies ≤ a.jiffies) {e : TimerEvent} (he : e ∈ l)
    (hn : ¬ e.jiffies < now) : l.dropWhile (due now) = l := by
  cases l with
  | nil => rfl
  | cons d ds =>
    have hle : e.jiffies ≤ d.jiffies := by
      rcases mem_cons.mp he with rfl | he
      · exact le_refl _
      · exact (pairwise_cons.mp hs).1 e he
    have hd : ¬ due now d = true := by simp only [due, decide_eq_true_eq]; omega
    rw [dropWhile_cons, if_neg hd]

section Exact
variable {s : Kernel} {q : List ℕ}

theorem clockTimers_state (t : ℕ) : ((clockTimers s).task t).state =
    if wokenBy s (s.timer.takeWhile (due (add64 s.jiffies 1))) t then .ready
    else (s.task t).state := by
  rw [clockTimers, fireTimers_eq]
  show (if wokenBy s _ t = true then _ else _ : Task).state = _
  split <;> rfl

/-- The task of an event that fires is READY after the tick, or runs. -/
theorem tick_wakes (h : Inv s q) {e : TimerEvent}
    (he : e ∈ s.timer.takeWhile (due (add64 s.jiffies 1))) : ∃ t, (s.proc e.proc).task = some t ∧
      (((tick s).task t).state = .ready ∨
        ((tick s).task t).state = .running ∧ (tick s).curTask = some t) := by
  obtain ⟨t, ht, -⟩ := h.table e.proc (h.events e ((takeWhile_sublist _).subset he)).1
  refine ⟨t, ht, ?_⟩
  have hw : ((clockTimers s).task t).state = .ready := by
    rw [clockTimers_state, if_pos]
    exact any_eq_true.mpr ⟨e, he, by simpa using ht⟩
  rcases tick_state h t with hsame | ⟨-, hr⟩ | ⟨-, hrun⟩
  · exact Or.inl (hsame.trans hw)
  · exact Or.inl hr
  · exact Or.inr hrun

theorem tick_not_early (h : Inv s q) {t : ℕ} (hb : (s.task t).state = .blocked)
    (hn : ((tick s).task t).state ≠ .blocked) :
    ∃ e ∈ s.timer, (s.proc e.proc).task = some t ∧ e.jiffies < add64 s.jiffies 1 := by
  have hcur : s.curTask ≠ some t := by
    obtain ⟨c, hc, hcb, -⟩ := h.cur
    intro hct
    obtain rfl : t = c := Option.some.inj (hct.symm.trans hc)
    exact hcb hb
  by_cases hw : wokenBy s (s.timer.takeWhile (due (add64 s.jiffies 1))) t = true
  · obtain ⟨e, he, ht⟩ := any_eq_true.mp hw
    refine ⟨e, (takeWhile_sublist _).subset he, by simpa using ht, ?_⟩
    simpa [due] using mem_takeWhile_imp he
  · have hst : ((clockTimers s).task t).state = .blocked := by
      rw [clockTimers_state, if_neg hw, hb]
    rcases tick_state h t with hsame | ⟨hc, -⟩ | ⟨hr | hc, -⟩
    · exact absurd (hsame.trans hst) hn
    · exact absurd hc hcur
    · rw [hst] at hr; exact absurd hr (by simp)
    · exact absurd hc hcur

end Exact

/-- In every state of every run: no event is lost or fired twice, and the next tick wakes exactly the
    processes it should if and only if the pending events lie on one side of it. -/
theorem wakes_exactly_iff {b : Boot} {s : Kernel} (hr : Reach b s) :
    s.slept.Perm (s.fired ++ s.timer) ∧ (WakesExactly s ↔ SameSide s) := by
  obtain ⟨q, h⟩ := run_inv hr
  have hl := run_logged hr
  have heq := timing_tick h
  simp only [timing, Prod.mk.injEq] at heq
  obtain ⟨hj, ht, -, -⟩ := heq
  refine ⟨hl.log, fun hw => ?_, fun hside => ⟨?_, ?_, fun t hb hn => ?_⟩⟩
  · -- an event in front that is not due would keep a due one pending
    by_contra hno
    simp only [SameSide, not_or, not_forall] at hno
    obtain ⟨⟨e, he, hnot⟩, ⟨d, hd, hdue⟩⟩ := hno
    refine hw.none_left d ?_ (by rw [hj]; exact not_not.mp hdue)
    rw [ht, dropWhile_of_not_due hl.sorted he hnot]
    exact hd
  · rw [ht, hj]
    intro e he
    rcases hside with hall | hnone
    · have hnil : s.timer.dropWhile (due (add64 s.jiffies 1)) = [] :=
        List.dropWhile_eq_nil_iff.mpr fun d hd => by simpa [due] using hall d hd
      rw [hnil] at he
      exact absurd he List.not_mem_nil
    · exact hnone e ((List.dropWhile_sublist _).subset he)
  · rw [hj]
    intro e he hdue
    rcases hside with hall | hnone
    · refine tick_wakes h ?_
      rw [List.takeWhile_eq_self_iff.mpr fun d hd => by simpa [due] using hall d hd]
      exact he
    · exact absurd hdue (hnone e he)
  · rw [hj]
    exact tick_not_early h hb hn

/-! The run of the diagram: `init` sleeps a second, then its child sleeps for no time at all. -/

/-- The child runs, `init` sleeps until tick 100. -/
def initAsleep : Kernel := tick (sysNanosleep true 1 0 (sysForkC (some (2, 2)) lowBoot.state).2)

/-- Both sleep, the child until tick 1. -/
def bothAsleep : Kernel := sysNanosleep true 0 0 initAsleep

theorem initAsleep_reach : Reach lowBoot initAsleep := by
  have h1 : Reach lowBoot (sysForkC (some (2, 2)) lowBoot.state).2 :=
    ReflTransGen.single lowBoot_fork
  have h2 := h1.tail (Step.nanosleep _ 1 ⟨by decide, by decide, by decide⟩ true 1 0)
  exact h2.tail (Step.tick _ trivial)

theorem bothAsleep_reach : Reach lowBoot bothAsleep :=
  initAsleep_reach.tail (Step.nanosleep _ 2 ⟨by decide, by decide, by decide⟩ true 0 0)

/-- Before the second sleep the condition holds. -/
theorem wakes_exactly_one_sleeper : SameSide initAsleep ∧ WakesExactly initAsleep := by
  have hside : SameSide initAsleep := Or.inr (by decide)
  exact ⟨hside, (wakes_exactly_iff initAsleep_reach).2.mpr hside⟩

/-- After it the next tick leaves the child's event, which is due, pending. -/
theorem short_sleep_not_woken : Reach lowBoot bothAsleep ∧ ¬ WakesExactly bothAsleep := by
  refine ⟨bothAsleep_reach, fun h => ?_⟩
  exact h.none_left ⟨1, 2⟩ (by decide) (by decide)

end Advos.Sched
