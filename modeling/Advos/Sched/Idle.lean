import Advos.Sched.Exit

/-! The idle task against work that is ready.

    The clock charges the idle task like any other, and nothing ever gives it new credit: after `k` idle ticks
    its `int` credit is `-k`. As long as that is not positive every tick looks for work. After 2^31 idle ticks
    the decrement wraps:

        credit   0 ─▶ -1 ─▶ -2 ─▶ ... ─▶ -2^31 ─▶ 2^31 - 1 ─▶ ... ─▶ 1 ─▶ 0
        tick     look for work ..........│ keep the idle task ......│ look for work

    and for the 2^31 - 1 ticks that follow the idle task keeps the processor, whoever is READY. -/

namespace Advos.Sched
open Linked Word Function

/-! ### Credits are `int`s -/

/-- Every credit is an `int`. -/
def Bounded (s : Kernel) : Prop := ∀ t, -2 ^ 31 ≤ (s.task t).credit ∧ (s.task t).credit < 2 ^ 31

section Credit
variable {s : Kernel}

theorem wrap32_bounds (x : ℤ) : -2 ^ 31 ≤ wrap32 x ∧ wrap32 x < 2 ^ 31 := by
  have hle := Int.le_bmod (x := x) (m := 2 ^ 32) (by norm_num)
  have hlt := Int.bmod_lt (x := x) (m := 2 ^ 32) (by norm_num)
  norm_num at hle hlt
  rw [wrap32]
  norm_num
  exact ⟨hle, hlt⟩

theorem Bounded.setTask (h : Bounded s) {t : ℕ} {v : Task} (hv : -2 ^ 31 ≤ v.credit ∧ v.credit < 2 ^ 31) :
    Bounded (s.setTask t v) := by
  intro u
  change -2 ^ 31 ≤ (update s.task t v u).credit ∧ (update s.task t v u).credit < 2 ^ 31
  by_cases hu : u = t
  · rw [hu, update_self]
    exact hv
  · rw [update_of_ne hu]
    exact h u

theorem Bounded.setState (h : Bounded s) {t : ℕ} {st : TaskState} : Bounded (s.setState t st) := h.setTask (h t)

theorem Bounded.clock (h : Bounded s) : Bounded (charge (clockTimers s)) := by
  have htimers : Bounded (clockTimers s) := by
    intro t
    rw [clockTimers_credit]
    exact h t
  rw [charge]
  split
  · exact htimers
  · exact htimers.setTask (wrap32_bounds _)

theorem Bounded.schedSlots (slots : List (Option ℕ)) : ∀ {s : Kernel}, Bounded s →
    Bounded (slots.foldl schedSlot s) := by
  induction slots with
  | nil => exact fun h => h
  | cons slot slots ih =>
    intro s h
    rw [List.foldl_cons]
    refine ih ?_
    rcases schedSlot_cases s slot slots with ⟨hs, -⟩ | ⟨t, hs, -⟩
    · rwa [hs]
    · rw [hs]
      exact h.setTask (by norm_num)

theorem Bounded.tick (h : Bounded s) : Bounded (tick s) := by
  have hrestart : ∀ {s : Kernel}, Bounded s → Bounded (taskRestart s) := by
    intro s h
    rw [taskRestart]
    split <;> exact h
  unfold Sched.tick ksignalClock
  refine hrestart ?_
  dsimp only
  split
  · exact h.clock
  have hrefill : Bounded (if (charge (clockTimers s)).runqueue = none then
      schedSchedule (charge (clockTimers s)) else charge (clockTimers s)) := by
    split
    · exact Bounded.schedSlots _ h.clock
    · exact h.clock
  generalize (if (charge (clockTimers s)).runqueue = none then schedSchedule (charge (clockTimers s))
    else charge (clockTimers s)) = s1 at hrefill
  have hpre : Bounded (preempt s1) := by
    rw [preempt]
    split
    · exact hrefill
    · exact hrefill.setState
  rw [dispatch]
  split
  · exact hpre
  · exact hpre.setState

theorem Bounded.step {ok : Kernel → Prop} {s' : Kernel} (h : Bounded s) (hst : Step ok s s') : Bounded s' := by
  cases hst with
  | tick => exact h.tick
  | nanosleep t hc slab tvSec tvNsec =>
    rw [sysNanosleep]
    split
    · exact h
    split
    · exact h
    split
    · rw [taskSwitch]
      split <;> exact h.setState
    · exact h
  | fork t hc mem hm =>
    rcases fork_cases s mem with heq | ⟨parent, i, p, c, hslot, hmem, heq⟩
    · rwa [heq]
    · rw [heq]
      exact h.setTask (by norm_num)
  | exit t hc status =>
    rw [sysExit]
    split
    · exact h
    split
    · exact h
    · exact h.setState

theorem run_bounded {ok : Kernel → Prop} {b : Boot} (hr : Relation.ReflTransGen (Step ok) b.state s) :
    Bounded s := by
  refine Run.invariant hr ?_ fun _ _ h hst => Bounded.step h hst
  intro t
  have hzero : (b.state.task t).credit = 0 := by
    simp only [Boot.state, taskRestart, Boot.prepared]
    by_cases ht : t = b.init
    · rw [ht, update_self]
    · rw [update_of_ne ht]
  rw [hzero]
  norm_num

/-- The charge leaves quantum exactly above 1, and at the smallest `int`. -/
theorem charged_pos {k : ℤ} (hk : -2 ^ 31 ≤ k ∧ k < 2 ^ 31) :
    0 < wrap32 (k - 1) ↔ ¬ (-2 ^ 31 < k ∧ k ≤ 1) := by
  rcases eq_or_lt_of_le hk.1 with rfl | hlt
  · rw [wrap32]
    decide
  · rw [wrap32_of_range (by omega) (by omega)]
    omega

end Credit

/-! ### The choice of a tick -/

/-- Some process of the table is READY after the timers of the tick. -/
def WorkReady (s : Kernel) : Prop := ∃ t, Owned s t ∧ ((clockTimers s).task t).state = .ready

/-- The tick chooses a READY task that is not the idle task. -/
def ChoosesWork (s : Kernel) : Prop :=
  ∃ t, (ksignalClock s).nextTask = some t ∧ s.idleTask ≠ some t ∧ ((clockTimers s).task t).state = .ready

section Choice
variable {s : Kernel} {q : List ℕ} {i : ℕ}

theorem not_choosesWork (h : Inv s q) (hcur : s.curTask = some i) (hkeep : 0 < wrap32 ((s.task i).credit - 1)) :
    ¬ ChoosesWork s := by
  rintro ⟨t, ht, -⟩
  rw [ksignalClock_keeps hcur hkeep, (charge_core (clockTimers_core h.toCore)).next] at ht
  cases ht

/-- The refill finds a READY task of the table: the queue is not empty after it. -/
theorem refill_nonempty (h : Core s q) (hwork : ∃ t, Owned s t ∧ (s.task t).state = .ready) :
    (if s.runqueue = none then schedSchedule s else s).runqueue ≠ none := by
  by_cases hrq : s.runqueue = none
  · rw [if_pos hrq]
    obtain ⟨task', rq', heq, -, hchain⟩ := schedSchedule_spec h hrq
    rw [heq]
    rintro (hnone : rq' = none)
    rw [hnone] at hchain
    obtain ⟨t, ho, hr⟩ := hwork
    have hmem := List.mem_reverse.mpr (mem_readyTasks.mpr ⟨ho, hr⟩)
    rw [Chain.eq_nil hchain] at hmem
    cases hmem
  · rwa [if_neg hrq]

theorem clock_frame : (charge (clockTimers s)).procs = s.procs ∧ (charge (clockTimers s)).proc = s.proc ∧
    (charge (clockTimers s)).idleTask = s.idleTask := by
  rw [clockTimers, fireTimers_eq, charge]
  split <;> exact ⟨rfl, rfl, rfl⟩

theorem keepsCpu_clock (hcur : s.curTask = some i) :
    keepsCpu (charge (clockTimers s)) = true ↔ 0 < wrap32 ((s.task i).credit - 1) := by
  have hct : (clockTimers s).curTask = some i := by
    rw [clockTimers, fireTimers_eq]
    exact hcur
  simp only [keepsCpu, charge, hct, Kernel.setTask, update_self, clockTimers_credit, gt_iff_lt,
    decide_eq_true_eq]

/-- A tick that takes the processor from the current task gives it to a READY task, if there is one. -/
theorem choosesWork (h : Inv s q) (hcur : s.curTask = some i) (hlost : ¬ 0 < wrap32 ((s.task i).credit - 1))
    (hwork : WorkReady s) : ChoosesWork s := by
  have hcore := charge_core (clockTimers_core h.toCore)
  obtain ⟨hprocs, hproc, hidle⟩ := @clock_frame s
  have hready : ∃ t, Owned (charge (clockTimers s)) t ∧ ((charge (clockTimers s)).task t).state = .ready := by
    obtain ⟨t, ⟨p, hp, ht⟩, hr⟩ := hwork
    exact ⟨t, ⟨p, by rwa [hprocs], by rwa [hproc]⟩, by rwa [charge_state]⟩
  obtain ⟨t, ht⟩ := Option.ne_none_iff_exists'.mp (refill_nonempty hcore hready)
  obtain ⟨q', hq'⟩ := refill_core hcore
  obtain ⟨task', rq', heq, hst⟩ := refill_frame hcore
  have hrun : ksignalClock s = dispatch (preempt (if (charge (clockTimers s)).runqueue = none then
      schedSchedule (charge (clockTimers s)) else charge (clockTimers s))) := by
    unfold ksignalClock
    exact if_neg (mt (keepsCpu_clock hcur).mp hlost)
  rw [heq] at ht hq' hrun
  -- the head of the refilled queue
  obtain ⟨rest, hrest, -⟩ := Chain.pop (by rw [← ht]; exact hq'.queue)
  have hmem : t ∈ q' := by
    rw [hrest]
    exact List.mem_cons_self
  refine ⟨t, ?_, ?_, ?_⟩
  · have hhead : (preempt { charge (clockTimers s) with task := task', runqueue := rq' }).runqueue = some t := by
      rw [preempt]
      split <;> exact ht
    rw [hrun, dispatch, hhead]
  · intro hi
    exact hq'.idle_notMem (hidle.trans hi) hmem
  · have hr := (hq'.ready t hmem).1
    rwa [hst, charge_state] at hr

end Choice

/-- In every state that runs reach, with the idle task current and work READY, the tick chooses work exactly if
    the credit of the idle task is neither the smallest `int` nor more than 1. -/
theorem idle_yields_iff {b : Boot} {s : Kernel} {i : ℕ} (hr : Reach b s) (hidle : s.idleTask = some i)
    (hcur : s.curTask = s.idleTask) (hwork : WorkReady s) :
    ChoosesWork s ↔ -2 ^ 31 < (s.task i).credit ∧ (s.task i).credit ≤ 1 := by
  obtain ⟨q, h⟩ := run_inv hr
  have hcur := hcur.trans hidle
  have hpos := charged_pos (run_bounded hr i)
  constructor
  · intro hchoose
    by_contra hcredit
    exact not_choosesWork h hcur (hpos.mpr hcredit) hchoose
  · intro hcredit
    exact choosesWork h hcur (fun hkeep => hpos.mp hkeep hcredit) hwork

/-- `init` sleeps for no time at all, and is READY at the first idle tick. -/
theorem idle_yields_iff_first_tick : ChoosesWork (sysNanosleep true 0 0 lowBoot.state) := by
  have hr : Reach lowBoot (sysNanosleep true 0 0 lowBoot.state) :=
    .single (Step.nanosleep _ 1 lowBoot_calls true 0 0)
  have hwork : WorkReady (sysNanosleep true 0 0 lowBoot.state) :=
    ⟨1, ⟨1, List.mem_singleton.mpr rfl, rfl⟩, by decide⟩
  exact (idle_yields_iff hr rfl rfl hwork).mpr (by decide)

/-! ### 2^31 idle ticks -/

/-- `init` went to sleep at boot, for 2^31 ticks, and the idle task has run for `n` of them. -/
def idleFor (n : ℕ) : Kernel :=
  { lowBoot.prepared with
    task := Function.update (Function.update (fun _ => ⟨none, .ready, none, 0⟩) 1 ⟨some 1, .blocked, none, 0⟩)
      0 ⟨none, .ready, none, -n⟩
    jiffies := n
    timer := [⟨2 ^ 31, 1⟩]
    curTask := some 0
    nextTask := none
    slept := [⟨2 ^ 31, 1⟩] }

theorem idleFor_zero : sysNanosleep true 21474836 480000000 lowBoot.state = idleFor 0 := by
  have htime : fireTime 0 21474836 480000000 = 2 ^ 31 := by decide +kernel
  have htask : (lowBoot.state.setState 1 .blocked).task = (idleFor 0).task := by
    funext t
    rcases eq_or_ne t 0 with rfl | h0
    · rfl
    rcases eq_or_ne t 1 with rfl | h1
    · rfl
    simp [Kernel.setState, Kernel.setTask, idleFor, lowBoot, Boot.state, taskRestart, Boot.prepared, h0, h1]
  have hslept : sysNanosleep true 21474836 480000000 lowBoot.state =
      { lowBoot.state.setState 1 .blocked with
        timer := [⟨fireTime 0 21474836 480000000, 1⟩], slept := [⟨fireTime 0 21474836 480000000, 1⟩]
        curTask := some 0 } := rfl
  rw [hslept, htime, idleFor]
  exact congrArg (fun f => { lowBoot.prepared with
    task := f, jiffies := 0, timer := [⟨2 ^ 31, 1⟩], curTask := some 0, nextTask := none,
    slept := [⟨2 ^ 31, 1⟩] }) htask

/-- STEP: one more idle tick. -/
theorem tick_idleFor {n : ℕ} (hn : n < 2 ^ 31) : tick (idleFor n) = idleFor (n + 1) := by
  have htimers : clockTimers (idleFor n) = { idleFor n with jiffies := n + 1 } := by
    have hadd : add64 n 1 = n + 1 := add64_of_lt (by omega)
    have hnot : ¬ 2 ^ 31 < n + 1 := by omega
    simp only [clockTimers, idleFor, fireTimers, hadd, hnot, if_false]
  have hcredit : wrap32 (-(n : ℤ) - 1) = -((n + 1 : ℕ) : ℤ) := by
    rw [wrap32_of_range (by omega) (by omega)]
    omega
  have hcharge : charge (clockTimers (idleFor n)) = idleFor (n + 1) := by
    rw [htimers]
    simp only [charge, idleFor, Kernel.setTask, update_self, update_idem, hcredit]
  have hkeep : ¬ keepsCpu (idleFor (n + 1)) = true := by
    simp only [keepsCpu, idleFor, update_self, gt_iff_lt, decide_eq_true_eq]
    omega
  -- nobody is READY: the idle task is preempted, and chosen again
  have hempty : (idleFor (n + 1)).runqueue = none := rfl
  have hrefill : schedSchedule (idleFor (n + 1)) = idleFor (n + 1) := rfl
  have hpreempt : preempt (idleFor (n + 1)) = idleFor (n + 1) := by
    simp only [preempt, idleFor, Kernel.setState, Kernel.setTask, update_self, update_idem]
  unfold tick ksignalClock
  rw [hcharge, if_neg hkeep, if_pos hempty, hrefill, hpreempt]
  rfl

/-- RUN -/
theorem idleFor_reach {n : ℕ} (hn : n ≤ 2 ^ 31) : Reach lowBoot (idleFor n) := by
  induction n with
  | zero =>
    rw [← idleFor_zero]
    exact .single (Step.nanosleep _ 1 lowBoot_calls true 21474836 480000000)
  | succ n ih =>
    rw [← tick_idleFor (by omega)]
    exact (ih (by omega)).tail (Step.tick _ trivial)

/-- After 2^31 idle ticks `init` is woken up, and the idle task keeps the processor. -/
theorem idle_keeps_processor : Reach lowBoot (idleFor (2 ^ 31)) ∧ (idleFor (2 ^ 31)).curTask = lowBoot.idle ∧
    WorkReady (idleFor (2 ^ 31)) ∧ ¬ ChoosesWork (idleFor (2 ^ 31)) := by
  have hr := idleFor_reach (le_refl (2 ^ 31))
  obtain ⟨q, h⟩ := run_inv hr
  refine ⟨hr, rfl, ⟨1, ⟨1, List.mem_singleton.mpr rfl, rfl⟩, ?_⟩, not_choosesWork h rfl ?_⟩
  · rw [clockTimers_state, if_pos]
    decide
  · exact (charged_pos (run_bounded hr 0)).mpr (by simp [idleFor])

end Advos.Sched
